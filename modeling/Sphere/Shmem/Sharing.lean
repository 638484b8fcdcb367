import Sphere.Shmem.Contents
import Sphere.Shmem.UnlockedFree

/-! The processes that share a `SharedMap`, down to the single bytes of the table: the body
of an operation runs between `SemLock`'s wait and post, and a value that `at` returned is
freed at any time. -/

namespace Sphere.Shmem

open Lib Lib.Transition

/-- A call that a process is in, what is left of it, and its requests so far; `pool` is what
the last one, answered or not, has found. -/
structure Running (K V : Type) where
  op : Op K V
  rest : Body K V (Outcome V)
  pool : ShMemState
  requests : List Request

/-- `history` is the calls that are over, in the order in which they left the map. -/
structure Sharing (K V : Type) where
  shared : Shared
  nodes : List (Node K V)
  running : ℕ → Option (Running K V)
  history : List (Done K V)

/-- A process calls an operation and gets the semaphore, or `sem_wait` fails; it goes on
with what it is in; or the destructor of a value it was given runs. -/
inductive Turn (K V : Type)
  | call (op : Op K V)
  | interrupt (op : Op K V)
  | go
  | release (a : Allocation)
  deriving DecidableEq, Repr

/-- The characters that go to the caller with the result. -/
def Outcome.buffer {V : Type} : Outcome V → Option Allocation
  | .value o => o.buffer
  | _ => none

namespace Sharing

variable [Platform] {K V : Type}

def start (mem : ShMemState) (count : ℕ) : Sharing K V :=
  ⟨Shared.start mem count, [], fun _ => none, []⟩

def allocator (s : Sharing K V) (p : ℕ) (act : Act) : Option (Sharing K V) :=
  (s.shared.step (p, act)).map fun σ => { s with shared := σ }

def resume (s : Sharing K V) (p : ℕ) (r : Running K V) : Sharing K V :=
  { s with running := Function.update s.running p (some r) }

def task (s : Sharing K V) (p : ℕ) : Option Task := s.shared.procs[p]?.map (·.task)

/-- What `allocate` returns or throws when the process comes back from it, by where it was
before. -/
def answer (σ : Shared) (size n : ℕ) : Task → Except AllocError Allocation
  | .mark _ _ pos _ => .ok ⟨σ.mem.address pos, size, n⟩
  | .scan _ _ _ _ => .error .badAlloc
  | _ => .error (if σ.mem.blockSize = 0 then .badAlloc else .lengthError)

omit [Platform] in
@[simp] theorem answer_idle (σ : Shared) (size n : ℕ) : answer σ size n .idle =
    .error (if σ.mem.blockSize = 0 then .badAlloc else .lengthError) := rfl

/-- The result becomes the caller's. -/
def give (s : Sharing K V) (p : ℕ) : Option Allocation → Option (Sharing K V)
  | none => some s
  | some a => s.allocator p (.give ⟨a, none⟩)

/-- The call returns or throws, and the destructor of `SemLock` posts. -/
def leave (s : Sharing K V) (p : ℕ) (r : Running K V) (out : Outcome V) : Option (Sharing K V) :=
  (s.give p out.buffer).bind fun s => (s.allocator p .post).map fun s =>
    { s with
      running := Function.update s.running p none
      history := s.history ++ [⟨p, r.op, out, r.requests⟩] }

/-- The state after a step of `allocate` that leads to `σ`: the process is still in it, or
goes on with the answer. -/
def allocated (s : Sharing K V) (σ : Shared) (p : ℕ) (task : Task) (r : Running K V) (size n : ℕ)
    (k : Except AllocError Allocation → Body K V (Outcome V)) : Sharing K V :=
  let s' : Sharing K V := { s with shared := σ }
  let pool := if task = .idle then s.shared.mem else r.pool
  if s'.task p = some .idle then
    let a := answer s.shared size n task
    s'.resume p ⟨r.op, k a, pool, r.requests ++ [⟨pool, size, n, a⟩]⟩
  else s'.resume p { r with pool }

/-- The next step of a process that is not in a `memset` of `deallocate`. -/
def proceed (s : Sharing K V) (p : ℕ) (task : Task) (r : Running K V) : Option (Sharing K V) :=
  match r.rest with
  | .call (.allocate size n) k =>
    (s.shared.step (p, if task = .idle then .allocate size n else .go)).map fun σ =>
      s.allocated σ p task r size n k
  | .call (.deallocate a) k =>
    (s.allocator p (.free ⟨a, none⟩)).map fun s' => s'.resume p { r with rest := k () }
  | .call .nodes k => some (s.resume p { r with rest := k s.nodes })
  | .call (.setNodes ns) k =>
    some (({ s with nodes := ns } : Sharing K V).resume p { r with rest := k () })
  | .ret out => s.leave p r out

def step [LinearOrder K] (shape : Shape K V) (s : Sharing K V) (a : ℕ × Turn K V) :
    Option (Sharing K V) :=
  match a.2, s.running a.1 with
  | .call op, none => (s.allocator a.1 .wait).map fun s' =>
      s'.resume a.1 ⟨op, op.body shape, s.shared.mem, []⟩
  | .interrupt op, none =>
    if s.task a.1 = some .idle then
      some { s with history := s.history ++ [⟨a.1, op, .semaphoreError, []⟩] }
    else none
  | .release x, none => s.allocator a.1 (.free ⟨x, some a.1⟩)
  | .go, running =>
    match s.task a.1, running with
    | some (.clear _), _ => s.allocator a.1 .go
    | some task, some r => s.proceed a.1 task r
    | _, _ => none
  | _, _ => none

end Sharing

/-! What the steps below do to one process and to the allocations without an owner. -/

namespace Shared

variable {σ σ' : Shared} {p : ℕ}

/-- The allocations that no caller was given. -/
def own (σ : Shared) : Multiset Allocation :=
  ((σ.live.filter fun v => v.owner = none).map (·.allocation) : List Allocation)

/-- The process comes from `q` to `q'`, and the others stay where they are. -/
structure Turned (σ σ' : Shared) (p : ℕ) (q q' : Proc) : Prop where
  was : σ.procs[p]? = some q
  procs : σ'.procs = σ.procs.set p q'

theorem Turned.stay {q : Proc} (h : σ.procs[p]? = some q) : Turned σ σ p q q := by
  obtain ⟨hp, rfl⟩ := List.getElem?_eq_some_iff.mp h
  exact ⟨h, (List.set_getElem_self hp).symm⟩

theorem own_erase {v : Value} (hv : v ∈ σ.live) :
    σ.own = own { σ with live := v :: σ.live.erase v } := by
  have hperm := ((List.perm_cons_erase hv).filter fun v => v.owner = none).map (·.allocation)
  exact Multiset.coe_eq_coe.mpr hperm

section

variable [Platform]

theorem step_wait (h : σ.step (p, .wait) = some σ') :
    0 < σ.sem ∧ Turned σ σ' p ⟨.idle, false⟩ ⟨.idle, true⟩ ∧ σ'.own = σ.own := by
  obtain ⟨task, inside, hq, hm⟩ := step_move h
  simp only [Shared.step, hq] at h
  cases task with
  | idle =>
    obtain ⟨hc, h⟩ := Option.ite_none_right_eq_some.mp h
    obtain rfl := Option.some.inj h
    obtain ⟨rfl, hsem⟩ := hc
    exact ⟨hsem, ⟨hq, rfl⟩, rfl⟩
  | _ => cases h

theorem step_post (h : σ.step (p, .post) = some σ') :
    Turned σ σ' p ⟨.idle, true⟩ ⟨.idle, false⟩ ∧ σ'.own = σ.own := by
  obtain ⟨task, inside, hq, hm⟩ := step_move h
  simp only [Shared.step, hq] at h
  cases task with
  | idle =>
    obtain ⟨rfl, h⟩ := Option.ite_none_right_eq_some.mp h
    obtain rfl := Option.some.inj h
    exact ⟨⟨hq, rfl⟩, rfl⟩
  | _ => cases h

theorem step_allocate {size n : ℕ} (h : σ.step (p, .allocate size n) = some σ') :
    Turned σ σ' p ⟨.idle, true⟩ ⟨σ.enter size n, true⟩ ∧ σ'.own = σ.own := by
  obtain ⟨task, inside, hq, hm⟩ := step_move h
  simp only [Shared.step, hq] at h
  cases task with
  | idle =>
    obtain ⟨rfl, h⟩ := Option.ite_none_right_eq_some.mp h
    obtain rfl := Option.some.inj h
    exact ⟨⟨hq, rfl⟩, rfl⟩
  | _ => cases h

theorem step_give {a : Allocation} (h : σ.step (p, .give ⟨a, none⟩) = some σ') :
    σ'.procs = σ.procs ∧ σ.own = {a} + σ'.own := by
  obtain ⟨task, inside, hq, hm⟩ := step_move h
  simp only [Shared.step, hq] at h
  cases task with
  | idle =>
    obtain ⟨⟨-, hv, -⟩, h⟩ := Option.ite_none_right_eq_some.mp h
    obtain rfl := Option.some.inj h
    exact ⟨rfl, own_erase hv⟩
  | _ => cases h

theorem step_free {v : Value} (h : σ.step (p, .free v) = some σ') :
    ∃ inside, Turned σ σ' p ⟨.idle, inside⟩ ⟨.clear (σ.mem.blocks v.allocation), inside⟩ ∧
      σ.own = own { σ' with live := v :: σ'.live } := by
  obtain ⟨task, inside, hq, hm⟩ := step_move h
  simp only [Shared.step, hq] at h
  cases task with
  | idle =>
    obtain ⟨⟨hv, -⟩, h⟩ := Option.ite_none_right_eq_some.mp h
    obtain rfl := Option.some.inj h
    exact ⟨inside, ⟨hq, rfl⟩, own_erase hv⟩
  | _ => cases h

/-- Where one step in the middle of a call of the allocator leads. -/
inductive Goes (σ : Shared) : Task → Task → Multiset Allocation → Prop
  | look (size n pos k : ℕ) : Goes σ (.scan size n pos k) (σ.look size n pos k) 0
  | write (size n pos k : ℕ) : Goes σ (.mark size n pos k) (.mark size n pos (k + 1)) 0
  | finish (size n pos k : ℕ) : Goes σ (.mark size n pos k) .idle {⟨σ.mem.address pos, size, n⟩}
  | clear (start len : ℕ) : Goes σ (.clear ⟨start, len + 1⟩) (.clear ⟨start + 1, len⟩) 0
  | cleared (start : ℕ) : Goes σ (.clear ⟨start, 0⟩) .idle 0

theorem step_go (h : σ.step (p, .go) = some σ') :
    ∃ task task' inside new, Turned σ σ' p ⟨task, inside⟩ ⟨task', inside⟩ ∧
      Goes σ task task' new ∧ σ'.own = new + σ.own := by
  obtain ⟨task, inside, hq, hm⟩ := step_move h
  have hz : ∀ own : Multiset Allocation, own = 0 + own := fun own => (zero_add own).symm
  cases hm with
  | look inside size n pos k =>
    exact ⟨_, _, inside, 0, ⟨hq, rfl⟩, .look size n pos k, hz _⟩
  | write inside hk => exact ⟨_, _, inside, 0, ⟨hq, rfl⟩, .write _ _ _ _, hz _⟩
  | finish inside hk => exact ⟨_, _, inside, _, ⟨hq, rfl⟩, .finish _ _ _ _, rfl⟩
  | clear inside start len => exact ⟨_, _, inside, 0, ⟨hq, rfl⟩, .clear _ _, hz _⟩
  | cleared inside start => exact ⟨_, _, inside, 0, ⟨hq, rfl⟩, .cleared _, hz _⟩
  | _ =>
    simp only [Shared.step, hq, advance] at h
    cases h

end

end Shared

namespace Sharing

variable [Platform] {K V : Type} {s s' : Sharing K V} {p : ℕ}

theorem allocator_some {act : Act} (h : s.allocator p act = some s') :
    ∃ σ, s.shared.step (p, act) = some σ ∧ s' = { s with shared := σ } := by
  obtain ⟨σ, hσ, rfl⟩ := Option.map_eq_some_iff.mp h
  exact ⟨σ, hσ, rfl⟩

/-- What a turn of one process does. -/
inductive Turns [LinearOrder K] (shape : Shape K V) (s : Sharing K V) (p : ℕ) :
    Turn K V → Sharing K V → Prop
  | call (op : Op K V) (σ : Shared) (hr : s.running p = none)
      (hσ : s.shared.step (p, .wait) = some σ) :
      Turns shape s p (.call op) (({ s with shared := σ } : Sharing K V).resume p
        ⟨op, op.body shape, s.shared.mem, []⟩)
  | interrupt (op : Op K V) (hr : s.running p = none) :
      Turns shape s p (.interrupt op)
        { s with history := s.history ++ [⟨p, op, .semaphoreError, []⟩] }
  | release (a : Allocation) (σ : Shared) (hr : s.running p = none)
      (hσ : s.shared.step (p, .free ⟨a, some p⟩) = some σ) :
      Turns shape s p (.release a) { s with shared := σ }
  | clear (rest : Segment) (σ : Shared) (ht : s.task p = some (.clear rest))
      (hσ : s.shared.step (p, .go) = some σ) : Turns shape s p .go { s with shared := σ }
  | enter (r : Running K V) (size n : ℕ)
      (k : Except AllocError Allocation → Body K V (Outcome V)) (σ : Shared)
      (hr : s.running p = some r) (hrest : r.rest = .call (.allocate size n) k)
      (hσ : s.shared.step (p, .allocate size n) = some σ) :
      Turns shape s p .go (s.allocated σ p .idle r size n k)
  | search (task : Task) (r : Running K V) (size n : ℕ)
      (k : Except AllocError Allocation → Body K V (Outcome V)) (σ : Shared)
      (hr : s.running p = some r) (hrest : r.rest = .call (.allocate size n) k)
      (ht : s.task p = some task) (hne : ∀ rest, task ≠ .clear rest) (hidle : task ≠ .idle)
      (hσ : s.shared.step (p, .go) = some σ) :
      Turns shape s p .go (s.allocated σ p task r size n k)
  | deallocate (r : Running K V) (a : Allocation) (k : Unit → Body K V (Outcome V)) (σ : Shared)
      (hr : s.running p = some r) (hrest : r.rest = .call (.deallocate a) k)
      (hσ : s.shared.step (p, .free ⟨a, none⟩) = some σ) :
      Turns shape s p .go (({ s with shared := σ } : Sharing K V).resume p { r with rest := k () })
  | nodes (r : Running K V) (k : List (Node K V) → Body K V (Outcome V))
      (hr : s.running p = some r) (hrest : r.rest = .call .nodes k) :
      Turns shape s p .go (s.resume p { r with rest := k s.nodes })
  | setNodes (r : Running K V) (ns : List (Node K V)) (k : Unit → Body K V (Outcome V))
      (hr : s.running p = some r) (hrest : r.rest = .call (.setNodes ns) k) :
      Turns shape s p .go (({ s with nodes := ns } : Sharing K V).resume p { r with rest := k () })
  | leave (r : Running K V) (out : Outcome V) (σ σ' : Shared)
      (hr : s.running p = some r) (hrest : r.rest = .ret out)
      (hσ : match out.buffer with
        | none => σ = s.shared
        | some a => s.shared.step (p, .give ⟨a, none⟩) = some σ)
      (hσ' : σ.step (p, .post) = some σ') :
      Turns shape s p .go
        { s with
          shared := σ'
          running := Function.update s.running p none
          history := s.history ++ [⟨p, r.op, out, r.requests⟩] }

theorem leave_turns [LinearOrder K] {shape : Shape K V} {r : Running K V} {out : Outcome V}
    (hr : s.running p = some r) (hrest : r.rest = .ret out) (h : s.leave p r out = some s') :
    Turns shape s p .go s' := by
  obtain ⟨s₁, h₁, h⟩ := Option.bind_eq_some_iff.mp h
  obtain ⟨s₂, h₂, rfl⟩ := Option.map_eq_some_iff.mp h
  obtain ⟨σ', hσ', rfl⟩ := allocator_some h₂
  cases hb : out.buffer with
  | none =>
    rw [hb] at h₁
    obtain rfl := Option.some.inj h₁
    exact .leave r out s.shared σ' hr hrest (by rw [hb]) hσ'
  | some a =>
    rw [hb] at h₁
    obtain ⟨σ, hσ, rfl⟩ := allocator_some h₁
    exact .leave r out σ σ' hr hrest (by rw [hb]; exact hσ) hσ'

theorem proceed_turns [LinearOrder K] {shape : Shape K V} {task : Task} {r : Running K V}
    (hr : s.running p = some r) (ht : s.task p = some task) (hne : ∀ rest, task ≠ .clear rest)
    (h : s.proceed p task r = some s') : Turns shape s p .go s' := by
  cases hrest : r.rest with
  | ret out =>
    simp only [proceed, hrest] at h
    exact leave_turns hr hrest h
  | call c k =>
    cases c with
    | allocate size n =>
      simp only [proceed, hrest] at h
      obtain ⟨σ, hσ, rfl⟩ := Option.map_eq_some_iff.mp h
      split_ifs at hσ with hidle
      · subst hidle
        exact .enter r size n k σ hr hrest hσ
      · exact .search task r size n k σ hr hrest ht hne hidle hσ
    | deallocate a =>
      simp only [proceed, hrest] at h
      obtain ⟨s₁, h₁, rfl⟩ := Option.map_eq_some_iff.mp h
      obtain ⟨σ, hσ, rfl⟩ := allocator_some h₁
      exact .deallocate r a k σ hr hrest hσ
    | nodes =>
      simp only [proceed, hrest] at h
      obtain rfl := Option.some.inj h
      exact .nodes r k hr hrest
    | setNodes ns =>
      simp only [proceed, hrest] at h
      obtain rfl := Option.some.inj h
      exact .setNodes r ns k hr hrest

theorem step_turns [LinearOrder K] {shape : Shape K V} {turn : Turn K V}
    (h : s.step shape (p, turn) = some s') : Turns shape s p turn s' := by
  cases turn with
  | call op =>
    cases hr : s.running p with
    | some r => simp [step, hr] at h
    | none =>
      simp only [step, hr] at h
      obtain ⟨s₁, h₁, rfl⟩ := Option.map_eq_some_iff.mp h
      obtain ⟨σ, hσ, rfl⟩ := allocator_some h₁
      exact .call op σ hr hσ
  | interrupt op =>
    cases hr : s.running p with
    | some r => simp [step, hr] at h
    | none =>
      simp only [step, hr] at h
      obtain ⟨-, h⟩ := Option.ite_none_right_eq_some.mp h
      obtain rfl := Option.some.inj h
      exact .interrupt op hr
  | release a =>
    cases hr : s.running p with
    | some r => simp [step, hr] at h
    | none =>
      simp only [step, hr] at h
      obtain ⟨σ, hσ, rfl⟩ := allocator_some h
      exact .release a σ hr hσ
  | go =>
    simp only [step] at h
    split at h
    · next ht =>
      obtain ⟨σ, hσ, rfl⟩ := allocator_some h
      exact .clear _ σ ht hσ
    · next task r hne ht hr => exact proceed_turns hr ht hne h
    · cases h

omit [Platform] in
theorem allocated_shared (s : Sharing K V) (σ : Shared) (p : ℕ) (task : Task) (r : Running K V)
    (size n : ℕ) (k : Except AllocError Allocation → Body K V (Outcome V)) :
    some (s.allocated σ p task r size n k).shared = some σ := by
  unfold allocated
  dsimp only
  split_ifs <;> rfl

/-- A turn is a run of the allocator's system. -/
theorem Turns.shared_run [LinearOrder K] {shape : Shape K V} {turn : Turn K V}
    (h : Turns shape s p turn s') :
    ∃ acts, run Shared.step s.shared acts = some s'.shared := by
  have hone {act : ℕ × Act} {σ : Shared} (hσ : s.shared.step act = some σ) :
      run Shared.step s.shared [act] = some σ := by
    rw [run, hσ]
    rfl
  cases h with
  | call op σ hr hσ => exact ⟨_, hone hσ⟩
  | release a σ hr hσ => exact ⟨_, hone hσ⟩
  | clear rest σ ht hσ => exact ⟨_, hone hσ⟩
  | enter r size n k σ hr hrest hσ => exact ⟨_, (hone hσ).trans (allocated_shared ..).symm⟩
  | search task r size n k σ hr hrest ht hne hidle hσ =>
    exact ⟨_, (hone hσ).trans (allocated_shared ..).symm⟩
  | deallocate r a k σ hr hrest hσ => exact ⟨_, hone hσ⟩
  | leave r out σ σ' hr hrest hσ hσ' =>
    have hpost {σ₀ : Shared} (h₀ : σ = σ₀) : run Shared.step σ₀ [(p, .post)] = some σ' := by
      rw [run, ← h₀, hσ']
      rfl
    split at hσ
    · exact ⟨_, hpost hσ⟩
    · next a hb =>
      refine ⟨[(p, .give ⟨a, none⟩), (p, .post)], ?_⟩
      rw [run, hσ]
      exact hpost rfl
  | _ => exact ⟨[], rfl⟩

end Sharing
end Sphere.Shmem
