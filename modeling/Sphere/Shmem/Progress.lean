import Sphere.Shmem.Owned

/-! A call of the map comes to its end: whatever the others have done, the process that is in
it can take each of its steps, and after some of them it has posted. -/

namespace Sphere.Shmem

open Lib Lib.Transition

namespace Shared

variable [Platform] {σ : Shared} {p : ℕ}

/-- In the search of `allocate`, or in its `memset`. -/
def Seeks (size n : ℕ) : Task → Prop
  | .scan size' n' _ _ | .mark size' n' _ _ => size' = size ∧ n' = n
  | _ => False

/-- What is at most left of an `allocate`: bytes to mark, and before that bytes to read. -/
def weight (mem : ShMemState) : Task → ℕ
  | .mark size n _ k => mem.blocksOf size n - k
  | .scan size n pos k =>
    (mem.blocksCount + 1 - pos) * (mem.blocksCount + 2) + (mem.blocksCount + 1 - (pos + k))
      + mem.blocksOf size n + 1
  | _ => 0

theorem weight_look {size n pos k : ℕ} :
    σ.look size n pos k = .idle ∨ Seeks size n (σ.look size n pos k) ∧
      weight σ.mem (σ.look size n pos k) < weight σ.mem (.scan size n pos k) := by
  unfold look
  split_ifs with hend hk hbyte
  · exact .inl rfl
  · refine .inr ⟨⟨rfl, rfl⟩, ?_⟩
    simp only [weight]
    omega
  · -- the byte that was read lies in the table
    have hlt := (List.getElem?_eq_some_iff.mp hbyte).1
    rw [σ.mem.table_length] at hlt
    refine .inr ⟨⟨rfl, rfl⟩, ?_⟩
    simp only [weight]
    omega
  · refine .inr ⟨⟨rfl, rfl⟩, ?_⟩
    have hrow : σ.mem.blocksCount + 1 - pos = σ.mem.blocksCount + 1 - (pos + 1) + 1 := by omega
    simp only [weight]
    rw [hrow, Nat.add_mul]
    omega

theorem seeks_step {size n : ℕ} {task : Task} {inside : Bool}
    (hq : σ.procs[p]? = some ⟨task, inside⟩) (hs : Seeks size n task) :
    ∃ σ' task', σ.step (p, .go) = some σ' ∧ Turned σ σ' p ⟨task, inside⟩ ⟨task', inside⟩ ∧
      (task' = .idle ∨ Seeks size n task' ∧ weight σ'.mem task' < weight σ.mem task) := by
  cases task with
  | scan size' n' pos k =>
    obtain ⟨rfl, rfl⟩ := hs
    have hgo : σ.step (p, .go) =
        some (σ.setProc p ⟨σ.look size' n' pos k, inside⟩) := by
      simp only [Shared.step, hq]
      rfl
    exact ⟨_, _, hgo, ⟨hq, rfl⟩, weight_look⟩
  | mark size' n' pos k =>
    obtain ⟨rfl, rfl⟩ := hs
    by_cases hk : k < σ.mem.blocksOf size' n'
    · have hgo : σ.step (p, .go) =
          some { σ.setProc p ⟨.mark size' n' pos (k + 1), inside⟩ with
            mem := σ.mem.memset (pos + k) USED_BLOCK 1 } := by
        simp only [Shared.step, hq]
        exact if_pos hk
      have hless : σ.mem.blocksOf size' n' - (k + 1) < σ.mem.blocksOf size' n' - k := by omega
      exact ⟨_, .mark size' n' pos (k + 1), hgo, ⟨hq, rfl⟩, .inr ⟨⟨rfl, rfl⟩, hless⟩⟩
    · have hgo : σ.step (p, .go) =
          some { σ.setProc p ⟨.idle, inside⟩ with
            live := ⟨⟨σ.mem.address pos, size', n'⟩, none⟩ :: σ.live } := by
        simp only [Shared.step, hq]
        exact if_neg hk
      exact ⟨_, .idle, hgo, ⟨hq, rfl⟩, .inl rfl⟩
  | _ => exact hs.elim

theorem free_of {a : Allocation} (hq : σ.procs[p]? = some ⟨.idle, true⟩) (ha : a ∈ σ.own) :
    σ.step (p, .free ⟨a, none⟩) =
      some { σ.setProc p ⟨.clear (σ.mem.blocks a), true⟩ with live := σ.live.erase ⟨a, none⟩ } := by
  simp only [Shared.step, hq]
  exact if_pos ⟨mem_own.mp ha, .inr ⟨trivial, trivial⟩⟩

theorem give_of {a : Allocation} (hq : σ.procs[p]? = some ⟨.idle, true⟩) (ha : a ∈ σ.own) :
    σ.step (p, .give ⟨a, none⟩) =
      some { σ with live := ⟨a, some p⟩ :: σ.live.erase ⟨a, none⟩ } := by
  simp only [Shared.step, hq]
  exact if_pos ⟨trivial, mem_own.mp ha, trivial⟩

theorem post_of (hq : σ.procs[p]? = some ⟨.idle, true⟩) :
    σ.step (p, .post) = some { σ.setProc p ⟨.idle, false⟩ with sem := σ.sem + 1 } := by
  simp only [Shared.step, hq]
  exact if_pos trivial

end Shared

namespace Sharing

variable [Platform] {K V : Type} {s s' : Sharing K V} {p : ℕ}

theorem allocator_of {act : Act} {σ : Shared} (h : s.shared.step (p, act) = some σ) :
    s.allocator p act = some { s with shared := σ } := by
  rw [allocator, h]
  rfl

theorem proceed_allocate {r : Running K V} {size n : ℕ}
    {k : Except AllocError Allocation → Body K V (Outcome V)} {task : Task} {σ : Shared}
    (hrest : r.rest = .call (.allocate size n) k)
    (hσ : s.shared.step (p, if task = .idle then .allocate size n else .go) = some σ) :
    s.proceed p task r = some (s.allocated σ p task r size n k) := by
  rw [proceed, hrest]
  dsimp only
  rw [hσ, Option.map_some]

theorem leave_of {t u : Sharing K V} {r : Running K V} {out : Outcome V}
    (hgive : s.give p out.buffer = some t) (hpost : t.allocator p .post = some u) :
    s.leave p r out = some { u with
      running := Function.update u.running p none
      history := u.history ++ [⟨p, r.op, out, r.requests⟩] } := by
  rw [leave, hgive, Option.bind_some, hpost, Option.map_some]

variable [LinearOrder K] {shape : Shape K V}

/-- With steps of its own only the process gets out of its call, which has been served. -/
def Finishes (shape : Shape K V) (p : ℕ) (op : Op K V) (s : Sharing K V) : Prop :=
  ∃ n s' out requests, run (Sharing.step shape) s (List.replicate n (p, .go)) = some s' ∧
    s'.running p = none ∧ s'.history = s.history ++ [⟨p, op, out, requests⟩] ∧
    unserved ⟨p, op, out, requests⟩ = none

theorem Finishes.step {op : Op K V} (hstep : s.step shape (p, .go) = some s')
    (hhist : s'.history = s.history) (h : Finishes shape p op s') : Finishes shape p op s := by
  obtain ⟨n, t, out, requests, hrun, ht, hend, hserved⟩ := h
  refine ⟨n + 1, t, out, requests, ?_, ht, hhist ▸ hend, hserved⟩
  rw [List.replicate_succ, run, hstep]
  exact hrun

variable (shape) in
theorem step_call {σ : Shared} (hr : s.running p = none)
    (hσ : s.shared.step (p, .wait) = some σ) (op : Op K V) : s.step shape (p, .call op) =
      some (({ s with shared := σ } : Sharing K V).resume p
        ⟨op, op.body shape, s.shared.mem, []⟩) := by
  simp only [step, hr, allocator_of hσ, Option.map_some]

theorem step_clear {rest : Segment} (ht : s.task p = some (.clear rest)) :
    s.step shape (p, .go) = s.allocator p .go := by
  simp only [step, ht]

theorem step_proceed {r : Running K V} {task : Task} (hr : s.running p = some r)
    (ht : s.task p = some task) (hne : ∀ rest, task ≠ .clear rest) :
    s.step shape (p, .go) = s.proceed p task r := by
  cases task with
  | clear rest => exact absurd rfl (hne rest)
  | _ => simp only [step, ht, hr]

variable (shape) in
/-- A process that frees a segment comes to its end. -/
theorem clear_run (len : ℕ) : ∀ (start : ℕ) (s : Sharing K V), Safe s →
    s.task p = some (.clear ⟨start, len⟩) →
    ∃ n s', run (Sharing.step shape) s (List.replicate n (p, .go)) = some s' ∧ Safe s' ∧
      s'.task p = some .idle ∧ s'.running = s.running ∧ s'.history = s.history := by
  induction len with
  | zero =>
    intro start s hs ht
    obtain ⟨⟨task, inside⟩, hq, rfl⟩ := Option.map_eq_some_iff.mp ht
    have hgo : s.shared.step (p, .go) = some (s.shared.setProc p ⟨.idle, inside⟩) := by
      simp only [Shared.step, hq]
      rfl
    have hturn : Shared.Turned s.shared (s.shared.setProc p ⟨.idle, inside⟩) p _ _ := ⟨hq, rfl⟩
    have hstep : s.step shape (p, .go) = _ := (step_clear ht).trans (allocator_of hgo)
    refine ⟨1, _, ?_, hs.step hstep, task_turned hturn, rfl, rfl⟩
    rw [List.replicate_one, run, hstep]
    rfl
  | succ len ih =>
    intro start s hs ht
    obtain ⟨⟨task, inside⟩, hq, rfl⟩ := Option.map_eq_some_iff.mp ht
    let σ : Shared :=
      { s.shared.setProc p ⟨.clear ⟨start + 1, len⟩, inside⟩ with
        mem := s.shared.mem.memset start FREE_BLOCK 1 }
    have hgo : s.shared.step (p, .go) = some σ := by
      simp only [Shared.step, hq]
      rfl
    have hturn : Shared.Turned s.shared σ p _ _ := ⟨hq, rfl⟩
    have hstep : s.step shape (p, .go) = _ := (step_clear ht).trans (allocator_of hgo)
    obtain ⟨n, t, hrun, hrest⟩ := ih (start + 1) _ (hs.step hstep) (task_turned hturn)
    refine ⟨n + 1, t, ?_, hrest⟩
    rw [List.replicate_succ, run, hstep]
    exact hrun

/-- A process that is in `allocate` comes back from it. -/
theorem finishes_allocate {op : Op K V} {size n : ℕ}
    {k : Except AllocError Allocation → Body K V (Outcome V)}
    (hk : ∀ a s r, Safe s → s.running p = some r → r.op = op → r.rest = k a →
      Finishes shape p op s) (w : ℕ) :
    ∀ (s : Sharing K V) (r : Running K V) (task : Task), Safe s → s.running p = some r →
      r.op = op → r.rest = .call (.allocate size n) k → s.task p = some task →
      Shared.Seeks size n task → Shared.weight s.shared.mem task = w → Finishes shape p op s := by
  induction w using Nat.strong_induction_on with
  | _ w ih =>
    intro s r task hs hr hop hrest ht hseek hw
    obtain ⟨⟨task, inside⟩, hq, rfl⟩ := Option.map_eq_some_iff.mp ht
    obtain ⟨σ, task', hgo, hturn, hnext⟩ := Shared.seeks_step hq hseek
    have hne : task ≠ .idle := by
      rintro rfl
      exact hseek
    have hclear : ∀ rest, task ≠ .clear rest := by
      rintro rest rfl
      exact hseek
    have hstep : s.step shape (p, .go) = some (s.allocated σ p task r size n k) :=
      (step_proceed hr ht hclear).trans (proceed_allocate hrest (by rwa [if_neg hne]))
    have hs' := hs.step hstep
    rcases allocated_cases task r k hturn with ⟨r', he, hop', -, ⟨-, hback, -⟩ | ⟨hbusy, hsame, -⟩⟩
    · rw [he] at hs' hstep
      exact .step hstep rfl
        (hk _ _ r' hs' (Function.update_self ..) (hop'.trans hop) hback)
    · rw [he] at hs' hstep
      refine .step hstep rfl ?_
      obtain ⟨hseek', hless⟩ := hnext.resolve_left hbusy
      exact ih _ (hw ▸ hless) _ r' task' hs' (Function.update_self ..) (hop'.trans hop)
        (hsame.trans hrest) (task_turned hturn) hseek' rfl

/-- Where a process in a call can be. -/
theorem finishes_of {r : Running K V}
    (hidle : ∀ s, Safe s → s.running p = some r → s.task p = some .idle →
      Finishes shape p r.op s)
    (hseek : ∀ s task size n k, r.rest = .call (.allocate size n) k → Safe s →
      s.running p = some r → s.task p = some task → Shared.Seeks size n task →
      Finishes shape p r.op s) (hs : Safe s) (hr : s.running p = some r) :
    Finishes shape p r.op s := by
  obtain ⟨⟨task, inside⟩, hq⟩ := hs.coherent.known p (by rw [hr]; rfl)
  have ht := task_eq hq
  have hpend := hs.coherent.pending p _ hq
  rw [hr] at hpend
  cases task with
  | idle => exact hidle s hs hr ht
  | clear rest =>
    obtain ⟨n, t, hrun, hs', ht', hrunning, hhist⟩ := clear_run shape _ _ s hs ht
    obtain ⟨n', t', out, requests, hrun', hend⟩ := hidle t hs' (hrunning ▸ hr) ht'
    refine ⟨n + n', t', out, requests, ?_, hhist ▸ hend⟩
    rw [List.replicate_add, run_append, hrun]
    exact hrun'
  | scan size n pos k =>
    obtain ⟨_, k, hk, hrest⟩ := hpend
    obtain rfl := Option.some.inj hk
    exact hseek s _ size n k hrest hs hr ht ⟨rfl, rfl⟩
  | mark size n pos k =>
    obtain ⟨_, k, hk, hrest⟩ := hpend
    obtain rfl := Option.some.inj hk
    exact hseek s _ size n k hrest hs hr ht ⟨rfl, rfl⟩

/-- An idle process in a call is inside. -/
theorem Safe.inside (hs : Safe s) {r : Running K V} (hr : s.running p = some r)
    (ht : s.task p = some .idle) : s.shared.procs[p]? = some ⟨.idle, true⟩ := by
  obtain ⟨⟨task, inside⟩, hq, rfl⟩ := Option.map_eq_some_iff.mp ht
  have hin := hs.coherent.inside p _ hq
  rw [hr] at hin
  rw [hq, show inside = true from hin]

omit [Platform] [LinearOrder K] in
theorem Outcome.mem_owned {out : Outcome V} {a : Allocation}
    (h : out.buffer = some a) : a ∈ out.owned := by
  cases out with
  | value o =>
    change o.buffer = some a at h
    change a ∈ o.owned
    rw [Object.owned, h]
    exact Multiset.mem_singleton_self a
  | _ => cases h

/-- The end of a call: the buffer of the result is there to be given. -/
theorem finishes_ret {r : Running K V} {out : Outcome V} (hrest : r.rest = .ret out) (hs : Safe s)
    (hr : s.running p = some r) (ht : s.task p = some .idle) : Finishes shape p r.op s := by
  obtain ⟨m, hm⟩ := hs.serving
  have hwp := hm.running p _ hr
  rw [hrest] at hwp
  obtain ⟨m', hserves, hrests⟩ := hwp
  have hq := hs.inside hr ht
  have hgiven : ∃ t : Sharing K V, s.give p out.buffer = some t ∧
      t.shared.procs = s.shared.procs := by
    cases hb : out.buffer with
    | none => exact ⟨s, rfl, rfl⟩
    | some a =>
      have hown : s.shared.own = out.owned + owned s.nodes := hrests.own
      have ha : a ∈ s.shared.own :=
        hown ▸ Multiset.mem_add.mpr (.inl (Outcome.mem_owned hb))
      exact ⟨_, allocator_of (Shared.give_of hq ha), rfl⟩
  obtain ⟨t, hgive, hprocs⟩ := hgiven
  have hpost := allocator_of (s := t) (Shared.post_of (hprocs ▸ hq))
  have hproceed : s.proceed p .idle r = s.leave p r out := by
    rw [proceed, hrest]
  have hstep : s.step shape (p, .go) = _ :=
    (step_proceed hr ht (by simp)).trans (hproceed.trans (leave_of hgive hpost))
  have hhist : t.history = s.history := by
    cases hb : out.buffer with
    | none =>
      rw [hb] at hgive
      rw [← Option.some.inj hgive]
    | some a =>
      rw [hb] at hgive
      obtain ⟨σ, -, rfl⟩ := allocator_some hgive
      rfl
  refine ⟨1, _, out, r.requests, by rw [List.replicate_one, run, hstep]; rfl,
    Function.update_self .., ?_, Serves.unserved hserves p r.requests⟩
  exact congrArg (· ++ [⟨p, r.op, out, r.requests⟩]) hhist

variable (shape) in
theorem finishes (rest : Body K V (Outcome V)) :
    ∀ s r, Safe s → s.running p = some r → r.rest = rest → Finishes shape p r.op s := by
  induction rest with
  | ret out =>
    intro s r hs hr hrest
    exact finishes_of (fun s hs hr ht => finishes_ret hrest hs hr ht)
      (fun _ _ _ _ _ h => by cases hrest.symm.trans h) hs hr
  | call c k ih =>
    intro s r hs hr hrest
    cases c with
    | allocate size n =>
      have hk : ∀ a s r', Safe s → s.running p = some r' → r'.op = r.op → r'.rest = k a →
          Finishes shape p r.op s :=
        fun a s r' hs hr' hop hrest' => hop ▸ ih a s r' hs hr' hrest'
      refine finishes_of (fun s hs hr ht => ?_) ?_ hs hr
      · have hq := hs.inside hr ht
        have henter : s.shared.step (p, .allocate size n) =
            some (s.shared.setProc p ⟨s.shared.enter size n, true⟩) := by
          simp only [Shared.step, hq]
          exact if_pos trivial
        have hturn := (Shared.step_allocate henter).1
        have hstep : s.step shape (p, .go) = _ :=
          (step_proceed hr ht (by simp)).trans (proceed_allocate hrest (by rwa [if_pos rfl]))
        have hs' := hs.step hstep
        obtain ⟨r', he, hop, -, ⟨-, hback, -⟩ | ⟨hbusy, hsame, -⟩⟩ :=
          allocated_cases .idle r k hturn
        · rw [he] at hs' hstep
          exact .step hstep rfl (hk _ _ r' hs' (Function.update_self ..) hop hback)
        · rw [he] at hs' hstep
          refine .step hstep rfl (finishes_allocate hk _ _ r' _ hs' (Function.update_self ..) hop
            (hsame.trans hrest) (task_turned hturn) ?_ rfl)
          unfold Shared.enter at hbusy ⊢
          split_ifs at hbusy ⊢ with hc
          · exact absurd rfl hbusy
          · exact ⟨rfl, rfl⟩
      · intro s task size' n' k' hcall hs hr ht hseek
        cases hrest.symm.trans hcall
        exact finishes_allocate hk _ s r task hs hr rfl hrest ht hseek rfl
    | deallocate a =>
      refine finishes_of (fun s hs hr ht => ?_) (fun _ _ _ _ _ h => by cases hrest.symm.trans h)
        hs hr
      obtain ⟨m, hm⟩ := hs.serving
      have hwp := hm.running p _ hr
      rw [hrest] at hwp
      have hfree := allocator_of (Shared.free_of (hs.inside hr ht) hwp.1)
      have hproceed : s.proceed p .idle r = (s.allocator p (.free ⟨a, none⟩)).map fun s' =>
          s'.resume p { r with rest := k () } := by
        rw [proceed, hrest]
      have hstep : s.step shape (p, .go) = _ :=
        ((step_proceed hr ht (by simp)).trans hproceed).trans (congrArg (Option.map _) hfree)
      exact .step hstep rfl
        (ih () _ { r with rest := k () } (hs.step hstep) (Function.update_self ..) rfl)
    | nodes =>
      refine finishes_of (fun s hs hr ht => ?_) (fun _ _ _ _ _ h => by cases hrest.symm.trans h)
        hs hr
      have hproceed : s.proceed p .idle r = some (s.resume p { r with rest := k s.nodes }) := by
        rw [proceed, hrest]
      have hstep : s.step shape (p, .go) = _ := (step_proceed hr ht (by simp)).trans hproceed
      exact .step hstep rfl
        (ih s.nodes _ { r with rest := k s.nodes } (hs.step hstep) (Function.update_self ..) rfl)
    | setNodes ns =>
      refine finishes_of (fun s hs hr ht => ?_) (fun _ _ _ _ _ h => by cases hrest.symm.trans h)
        hs hr
      have hproceed : s.proceed p .idle r =
          some (({ s with nodes := ns } : Sharing K V).resume p { r with rest := k () }) := by
        rw [proceed, hrest]
      have hstep : s.step shape (p, .go) = _ := (step_proceed hr ht (by simp)).trans hproceed
      exact .step hstep rfl
        (ih () _ { r with rest := k () } (hs.step hstep) (Function.update_self ..) rfl)

/-- The calls of the others are their own. -/
theorem turns_running {turn : Turn K V} (h : Turns shape s p turn s') {p' : ℕ} (hne : p' ≠ p) :
    s'.running p' = s.running p' := by
  have hallocated (σ : Shared) (task : Task) (r : Running K V) (size n : ℕ)
      (k : Except AllocError Allocation → Body K V (Outcome V)) :
      (s.allocated σ p task r size n k).running p' = s.running p' := by
    unfold allocated
    dsimp only
    split_ifs <;> exact Function.update_of_ne hne ..
  cases h with
  | enter r size n k σ hr hrest hσ => exact hallocated ..
  | search task r size n k σ hr hrest ht hc hidle hσ => exact hallocated ..
  | interrupt op hr => rfl
  | release a σ hr hσ => rfl
  | clear rest σ ht hσ => rfl
  | _ => exact Function.update_of_ne hne ..

theorem run_running {n : ℕ} (h : run (Sharing.step shape) s (List.replicate n (p, .go)) = some s')
    {p' : ℕ} (hne : p' ≠ p) : s'.running p' = s.running p' := by
  induction n generalizing s with
  | zero =>
    obtain rfl := Option.some.inj h
    rfl
  | succ n ih =>
    obtain ⟨t, hstep, hrun⟩ := run_cons_some h
    exact (ih hrun).trans (turns_running (step_turns hstep) hne)

theorem Safe.run (hs : Safe s) {turns : List (ℕ × Turn K V)}
    (hrun : Transition.run (Sharing.step shape) s turns = some s') : Safe s' :=
  run_preserves (fun _ _ _ h hstep => h.step hstep) hs hrun

theorem Safe.free (hs : Safe s) (hnone : ∀ p, s.running p = none) : s.shared.sem = 1 := by
  refine hs.opened fun q hq => ?_
  obtain ⟨p, hp⟩ := List.mem_iff_getElem?.mp hq
  rw [hs.coherent.inside p q hp, hnone p]
  rfl

/-- Steps that go on with what processes are in. -/
def Onward (turns : List (ℕ × Turn K V)) : Prop := ∀ a ∈ turns, a.2 = .go

omit [Platform] [LinearOrder K] in
theorem onward_replicate (p n : ℕ) : Onward (List.replicate n ((p, .go) : ℕ × Turn K V)) :=
  fun _ ha => congrArg Prod.snd (List.eq_of_mem_replicate ha)

/-- Somebody's call, if there is one, is over. -/
theorem Safe.cleared (hs : Safe s) (shape : Shape K V) :
    ∃ turns s', Onward turns ∧ Transition.run (Sharing.step shape) s turns = some s' ∧
      ∀ p, s'.running p = none := by
  by_cases hbusy : ∃ p r, s.running p = some r
  · obtain ⟨p, r, hr⟩ := hbusy
    obtain ⟨n, t, out, requests, hrun, hnone, -⟩ := finishes shape r.rest s r hs hr rfl
    refine ⟨_, t, onward_replicate p n, hrun, fun p' => ?_⟩
    by_cases hp : p' = p
    · rw [hp, hnone]
    · rw [run_running hrun hp, hs.coherent.alone hr hp]
  · refine ⟨[], s, nofun, rfl, fun p => ?_⟩
    by_contra hne
    exact hbusy ⟨p, Option.ne_none_iff_exists'.mp hne⟩

/-- The process calls, gets the semaphore, and with steps of its own only comes back served. -/
def Served (shape : Shape K V) (p : ℕ) (op : Op K V) (s : Sharing K V) : Prop :=
  ∃ n s' out requests,
    run (Sharing.step shape) s ((p, .call op) :: List.replicate n (p, .go)) = some s' ∧
    s'.history = s.history ++ [⟨p, op, out, requests⟩] ∧ unserved ⟨p, op, out, requests⟩ = none

/-- A process in no call that frees nothing is outside, and the call it makes is served. -/
theorem Safe.served (shape : Shape K V) (hs : Safe s) (hnone : ∀ p, s.running p = none)
    (ht : s.task p = some .idle) (op : Op K V) : Served shape p op s := by
  obtain ⟨⟨task, inside⟩, hq, rfl⟩ := Option.map_eq_some_iff.mp ht
  have hin := hs.coherent.inside p _ hq
  rw [hnone p] at hin
  obtain rfl : inside = false := hin
  have hwait : s.shared.step (p, .wait) =
      some { s.shared.setProc p ⟨.idle, true⟩ with sem := s.shared.sem - 1 } := by
    simp only [Shared.step, hq]
    exact if_pos ⟨trivial, by rw [hs.free hnone]; exact Nat.one_pos⟩
  have hcall := step_call shape (hnone p) hwait op
  obtain ⟨n, t, out, requests, hrun, -, hend⟩ :=
    finishes shape _ _ _ (hs.step hcall) (Function.update_self ..) rfl
  refine ⟨n, t, out, requests, ?_, hend⟩
  rw [Transition.run, hcall]
  exact hrun

end Sharing

open scoped Gnu

end Sphere.Shmem
