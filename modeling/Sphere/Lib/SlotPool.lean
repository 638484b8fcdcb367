import Mathlib.Logic.Relation
import Mathlib.Logic.Function.Basic
import Mathlib.Data.List.Nodup
import Mathlib.Tactic

/-! A growing pool of slots that are opened and closed by concurrent threads, with a
queue of the slots that may be opened again. One mutex guards the queue and each
slot has a lock of its own. A thread that closes a slot has seen it open under the
slot's lock before it waits for the mutex; a thread that opens one again takes it
from the queue under the mutex and does not take the slot's lock. The two halves of
a close and of a reopening are separate steps. -/

namespace Lib.SlotPool

/-- What a thread is in the middle of. -/
inductive Stage
  | idle
  | holding (p : ℕ)
  | saw (p : ℕ)
  | reopening (p : ℕ)
  | settled
  | queued (p : ℕ)
  | shut (p : ℕ)
  deriving DecidableEq, Repr

/-- The slot on which the queue and the slot's own state disagree for a moment. -/
def Stage.moving : Stage → Option ℕ
  | .reopening p | .queued p | .shut p => some p
  | _ => none

/-- The slot whose lock a thread has. -/
def Stage.slot : Stage → Option ℕ
  | .holding p | .saw p | .queued p | .shut p => some p
  | _ => none

/-- Whether it has the mutex. -/
def Stage.inside : Stage → Bool
  | .reopening _ | .settled | .queued _ | .shut _ => true
  | _ => false

@[ext] structure Pool (τ : Type*) where
  size : ℕ
  isOpen : ℕ → Bool
  free : List ℕ
  mutex : Option τ
  holder : ℕ → Option τ
  stage : τ → Stage

variable {τ : Type*}

def Pool.setOpen (a : Pool τ) (p : ℕ) (b : Bool) : Pool τ :=
  { a with isOpen := Function.update a.isOpen p b }

def Pool.setHolder (a : Pool τ) (p : ℕ) (o : Option τ) : Pool τ :=
  { a with holder := Function.update a.holder p o }

section Fields

variable (a : Pool τ) (p q : ℕ) (b : Bool) (o : Option τ) (u : τ)

@[simp, grind =] theorem setOpen_isOpen :
    (a.setOpen p b).isOpen q = if q = p then b else a.isOpen q := Function.update_apply ..
@[simp, grind =] theorem setOpen_size : (a.setOpen p b).size = a.size := rfl
@[simp, grind =] theorem setOpen_free : (a.setOpen p b).free = a.free := rfl
@[simp, grind =] theorem setOpen_mutex : (a.setOpen p b).mutex = a.mutex := rfl
@[simp, grind =] theorem setOpen_holder : (a.setOpen p b).holder q = a.holder q := rfl
@[simp, grind =] theorem setOpen_stage : (a.setOpen p b).stage u = a.stage u := rfl

@[simp, grind =] theorem setHolder_holder :
    (a.setHolder p o).holder q = if q = p then o else a.holder q := Function.update_apply ..
@[simp, grind =] theorem setHolder_size : (a.setHolder p o).size = a.size := rfl
@[simp, grind =] theorem setHolder_isOpen : (a.setHolder p o).isOpen q = a.isOpen q := rfl
@[simp, grind =] theorem setHolder_free : (a.setHolder p o).free = a.free := rfl
@[simp, grind =] theorem setHolder_mutex : (a.setHolder p o).mutex = a.mutex := rfl
@[simp, grind =] theorem setHolder_stage : (a.setHolder p o).stage u = a.stage u := rfl

end Fields

theorem setHolder_other {a : Pool τ} {p q : ℕ} {t u : τ} {o : Option τ} (ho : o = none ∨ o = some t)
    (hu : u ≠ t) (h : (a.setHolder p o).holder q = some u) : a.holder q = some u := by
  rw [setHolder_holder] at h
  split at h
  · obtain rfl | rfl := ho
    · cases h
    · exact absurd (Option.some.inj h).symm hu
  · exact h

/-- What holds while thread `t` is at the given stage. -/
def Stage.Ok (a : Pool τ) (t : τ) : Stage → Prop
  | .idle => True
  | .holding p => a.holder p = some t
  | .saw p => a.holder p = some t ∧ a.isOpen p = true
  | .reopening p => a.mutex = some t ∧ a.free.head? = some p ∧ a.isOpen p = true
  | .settled => a.mutex = some t
  | .queued p => a.mutex = some t ∧ a.holder p = some t ∧ p ∈ a.free ∧ a.isOpen p = true
  | .shut p =>
    a.mutex = some t ∧ a.holder p = some t ∧ p ∉ a.free ∧ a.isOpen p = false ∧ p < a.size

structure Inv (a : Pool τ) : Prop where
  nodup : a.free.Nodup
  bound : ∀ p ∈ a.free, p < a.size
  opened : ∀ p, a.isOpen p = true → p < a.size
  stage : ∀ t, (a.stage t).Ok a t
  settled : ∀ p < a.size, (∀ t, (a.stage t).moving ≠ some p) →
    (p ∈ a.free ↔ a.isOpen p = false)

/-- While the mutex is free no slot is moving. -/
theorem Inv.moving_none {a : Pool τ} (hi : Inv a) (hm : a.mutex = none) (u : τ) :
    (a.stage u).moving = none := by
  have hu := hi.stage u
  cases hs : a.stage u <;> simp_all [Stage.Ok, Stage.moving]

theorem Inv.mem_iff {a : Pool τ} (hi : Inv a) (hm : a.mutex = none) {p : ℕ} (hp : p < a.size) :
    p ∈ a.free ↔ a.isOpen p = false :=
  hi.settled p hp fun u => by simp [hi.moving_none hm u]

/-- The number of open slots. -/
def Pool.opened (a : Pool τ) : ℕ := (List.range a.size).countP a.isOpen

/-- While the mutex is free the queue counts the closed slots. -/
theorem Inv.count {a : Pool τ} (hi : Inv a) (hm : a.mutex = none) :
    a.free.length + a.opened = a.size := by
  have hperm : a.free.Perm ((List.range a.size).filter fun p => !a.isOpen p) := by
    refine (List.perm_ext_iff_of_nodup hi.nodup (List.nodup_range.filter _)).mpr fun p => ?_
    simp only [List.mem_filter, List.mem_range, Bool.not_eq_true']
    exact ⟨fun h => ⟨hi.bound p h, (hi.mem_iff hm (hi.bound p h)).mp h⟩,
      fun h => (hi.mem_iff hm h.1).mpr h.2⟩
  have hlen := List.length_eq_countP_add_countP a.isOpen (l := List.range a.size)
  rw [hperm.length_eq, ← List.countP_eq_length_filter, Pool.opened]
  simp only [List.length_range, Bool.not_eq_true, Bool.decide_eq_false] at hlen
  omega

/-- A thread at a slot has its lock. -/
theorem Inv.holder_of_slot {a : Pool τ} (hi : Inv a) {t : τ} {p : ℕ}
    (h : (a.stage t).slot = some p) : a.holder p = some t := by
  have ht := hi.stage t
  cases hs : a.stage t <;> rw [hs] at h ht <;> cases h
  · exact ht
  · exact ht.1
  · exact ht.2.1
  · exact ht.2.1

/-- What a step of `t` leaves alone for every other thread. -/
structure Frame (t : τ) (a b : Pool τ) : Prop where
  size : a.size ≤ b.size
  stage : ∀ u, u ≠ t → b.stage u = a.stage u
  holder : ∀ u p, u ≠ t → a.holder p = some u → b.holder p = some u
  opened : ∀ u p, u ≠ t → a.holder p = some u → a.isOpen p = true → b.isOpen p = true
  inside : ∀ u, u ≠ t → a.mutex = some u →
    b.mutex = some u ∧ b.free = a.free ∧ ∀ p < a.size, b.isOpen p = a.isOpen p

theorem Frame.ok {a b : Pool τ} {t u : τ} (hf : Frame t a b) (hi : Inv a) (hu : u ≠ t) :
    (b.stage u).Ok b u := by
  have h := hi.stage u
  rw [hf.stage u hu]
  cases hs : a.stage u with
  | idle => trivial
  | holding p =>
    rw [hs] at h
    exact hf.holder u p hu h
  | saw p =>
    rw [hs] at h
    exact ⟨hf.holder u p hu h.1, hf.opened u p hu h.1 h.2⟩
  | reopening p =>
    rw [hs] at h
    obtain ⟨hm, hfr, hop⟩ := hf.inside u hu h.1
    exact ⟨hm, hfr ▸ h.2.1, (hop p (hi.opened p h.2.2)).trans h.2.2⟩
  | settled =>
    rw [hs] at h
    exact (hf.inside u hu h).1
  | queued p =>
    rw [hs] at h
    obtain ⟨hm, hfr, hop⟩ := hf.inside u hu h.1
    exact ⟨hm, hf.holder u p hu h.2.1, hfr ▸ h.2.2.1, (hop p (hi.opened p h.2.2.2)).trans h.2.2.2⟩
  | shut p =>
    rw [hs] at h
    obtain ⟨hm, hfr, hop⟩ := hf.inside u hu h.1
    obtain ⟨_, hh, hnf, hcl, hp⟩ := h
    exact ⟨hm, hf.holder u p hu hh, hfr ▸ hnf, (hop p hp).trans hcl, hp.trans_le hf.size⟩

variable [DecidableEq τ]

/-- A step keeps the stages of all threads if it leaves its own thread's in order. -/
theorem Frame.stages {a b : Pool τ} {t : τ} (hf : Frame t a b) (hi : Inv a)
    (ht : (b.stage t).Ok b t) (u : τ) : (b.stage u).Ok b u := by
  by_cases hu : u = t
  · exact hu ▸ ht
  · exact hf.ok hi hu

def Pool.enter (a : Pool τ) (t : τ) (s : Stage) : Pool τ :=
  { a with stage := Function.update a.stage t s }

section Stages

variable (a : Pool τ) (t u : τ) (s : Stage) (q : ℕ)

@[simp, grind =] theorem enter_stage :
    (a.enter t s).stage u = if u = t then s else a.stage u := Function.update_apply ..
@[simp, grind =] theorem enter_size : (a.enter t s).size = a.size := rfl
@[simp, grind =] theorem enter_isOpen : (a.enter t s).isOpen q = a.isOpen q := rfl
@[simp, grind =] theorem enter_free : (a.enter t s).free = a.free := rfl
@[simp, grind =] theorem enter_mutex : (a.enter t s).mutex = a.mutex := rfl
@[simp, grind =] theorem enter_holder : (a.enter t s).holder q = a.holder q := rfl

end Stages

/-- One step of thread `t`. -/
inductive Step (t : τ) : Pool τ → Pool τ → Prop
  | extend (a) : a.stage t = .idle → Step t a { a.setOpen a.size true with size := a.size + 1 }
  | lock (a) (p : ℕ) : a.stage t = .idle → a.holder p = none →
      Step t a ((a.setHolder p (some t)).enter t (.holding p))
  | see (a) (p : ℕ) : a.stage t = .holding p → a.isOpen p = true → Step t a (a.enter t (.saw p))
  | forget (a) (p : ℕ) : a.stage t = .saw p → Step t a (a.enter t (.holding p))
  | unlock (a) (p : ℕ) : a.stage t = .holding p →
      Step t a ((a.setHolder p none).enter t .idle)
  | reopen (a) (p : ℕ) : a.stage t = .idle → a.mutex = none → a.free.head? = some p →
      Step t a { (a.setOpen p true).enter t (.reopening p) with mutex := some t }
  | unqueue (a) (p : ℕ) : a.stage t = .reopening p →
      Step t a { a.enter t .settled with free := a.free.tail }
  | release (a) : a.stage t = .settled → Step t a { a.enter t .idle with mutex := none }
  | queue (a) (p : ℕ) : a.stage t = .saw p → a.mutex = none →
      Step t a { a.enter t (.queued p) with free := a.free ++ [p], mutex := some t }
  | shutQueued (a) (p : ℕ) : a.stage t = .queued p →
      Step t a { (a.setOpen p false).enter t (.holding p) with mutex := none }
  | shut (a) (p : ℕ) : a.stage t = .saw p → a.mutex = none →
      Step t a { (a.setOpen p false).enter t (.shut p) with mutex := some t }
  | queueShut (a) (p : ℕ) : a.stage t = .shut p →
      Step t a { a.enter t (.holding p) with free := a.free ++ [p], mutex := none }

/-- A step of some thread. -/
def AnyStep (a b : Pool τ) : Prop := ∃ t, Step t a b

@[simp] theorem enter_enter (a : Pool τ) (t : τ) (s s' : Stage) :
    (a.enter t s).enter t s' = a.enter t s' := by simp [Pool.enter]

/-- A thread that finds an open slot's lock free ends up having seen it open. -/
theorem reaches_saw {a : Pool τ} {t : τ} {p : ℕ} (hst : a.stage t = .idle)
    (hh : a.holder p = none) (hp : a.isOpen p = true) :
    Relation.ReflTransGen AnyStep a ((a.setHolder p (some t)).enter t (.saw p)) := by
  have hlock := Step.lock a p hst hh
  have hsee := Step.see (t := t) ((a.setHolder p (some t)).enter t (.holding p)) p (by simp) hp
  rw [enter_enter] at hsee
  exact .tail (.single ⟨t, hlock⟩) ⟨t, hsee⟩

/-- The second half of a close together with the release of the slot's lock. -/
theorem reaches_shut {a : Pool τ} {t : τ} {p : ℕ} (hst : a.stage t = .queued p) :
    Relation.ReflTransGen AnyStep a
      { ((a.setOpen p false).setHolder p none).enter t .idle with mutex := none } := by
  have hshut := Step.shutQueued a p hst
  have hun := Step.unlock (t := t)
    { (a.setOpen p false).enter t (.holding p) with mutex := none } p (by simp [Pool.enter])
  have hsteps : Relation.ReflTransGen AnyStep a _ := .tail (.single ⟨t, hshut⟩) ⟨t, hun⟩
  simpa [Pool.enter, Pool.setHolder, Pool.setOpen] using hsteps

theorem reaches_queued {a : Pool τ} {t : τ} {p : ℕ} (hst : a.stage t = .shut p) :
    Relation.ReflTransGen AnyStep a
      { (a.setHolder p none).enter t .idle with free := a.free ++ [p], mutex := none } := by
  have hqueue := Step.queueShut a p hst
  have hun := Step.unlock (t := t)
    { a.enter t (.holding p) with free := a.free ++ [p], mutex := none } p (by simp [Pool.enter])
  have hsteps : Relation.ReflTransGen AnyStep a _ := .tail (.single ⟨t, hqueue⟩) ⟨t, hun⟩
  simpa [Pool.enter, Pool.setHolder] using hsteps

theorem Step.frame {a b : Pool τ} {t : τ} (hi : Inv a) (h : Step t a b) : Frame t a b := by
  have ht := hi.stage t
  cases h <;> refine ⟨?_, ?_, ?_, ?_, ?_⟩ <;> grind [Stage.Ok]

/-- A slot that is not moving after a step of `t`, nor was moved by `t` before, was settled. -/
theorem Inv.settled_before {a b : Pool τ} {t : τ} {q : ℕ} (hi : Inv a) (hf : Frame t a b)
    (hq : q < a.size) (hm : ∀ u, (b.stage u).moving ≠ some q)
    (ht : (a.stage t).moving ≠ some q) : q ∈ a.free ↔ a.isOpen q = false := by
  refine hi.settled q hq fun u => ?_
  by_cases hu : u = t
  · exact hu ▸ ht
  · exact hf.stage u hu ▸ hm u

theorem Inv.step {a b : Pool τ} {t : τ} (hi : Inv a) (h : Step t a b) : Inv b := by
  have hf := h.frame hi
  have ht := hi.stage t
  have hn := hi.nodup
  have hb := hi.bound
  have ho := hi.opened
  cases h with
  | extend hst =>
    refine ⟨hn, ?_, ?_, hf.stages hi ?_, fun q hq hm => ?_⟩
    · grind
    · grind
    · simp [hst, Stage.Ok]
    · by_cases h : q = a.size
      · grind
      · have := hi.settled q (by grind) hm
        grind
  | lock p hst hh =>
    refine ⟨hn, hb, ho, hf.stages hi ?_, fun q hq hm => hi.settled_before hf hq hm ?_⟩
    · simp [Stage.Ok]
    · simp [hst, Stage.moving]
  | see p hst hp =>
    refine ⟨hn, hb, ho, hf.stages hi ?_, fun q hq hm => hi.settled_before hf hq hm ?_⟩
    · grind [Stage.Ok]
    · simp [hst, Stage.moving]
  | forget p hst =>
    refine ⟨hn, hb, ho, hf.stages hi ?_, fun q hq hm => hi.settled_before hf hq hm ?_⟩
    · grind [Stage.Ok]
    · simp [hst, Stage.moving]
  | unlock p hst =>
    refine ⟨hn, hb, ho, hf.stages hi ?_, fun q hq hm => hi.settled_before hf hq hm ?_⟩
    · grind [Stage.Ok]
    · simp [hst, Stage.moving]
  | reopen p hst hm hh =>
    have hp : p ∈ a.free := List.mem_of_head? hh
    refine ⟨hn, hb, ?_, hf.stages hi ?_, fun q hq hmv => ?_⟩
    · grind
    · grind [Stage.Ok]
    · have := hi.mem_iff hm hq
      have := hmv t
      grind [Stage.moving]
  | unqueue p hst =>
    rw [hst] at ht
    obtain ⟨hm, hh, hp⟩ := ht
    obtain ⟨l, hl⟩ : ∃ l, a.free = p :: l := List.head?_eq_some_iff.mp hh
    simp only [hl, List.nodup_cons] at hn
    refine ⟨by simpa [hl] using hn.2, ?_, ho, hf.stages hi ?_, fun q hq hmv => ?_⟩
    · grind
    · simpa [Stage.Ok] using hm
    · by_cases hqp : q = p
      · grind
      · have := hi.settled_before hf hq hmv (by simp [hst, Stage.moving, Ne.symm hqp])
        grind
  | release hst =>
    refine ⟨hn, hb, ho, hf.stages hi ?_, fun q hq hm => hi.settled_before hf hq hm ?_⟩
    · grind [Stage.Ok]
    · simp [hst, Stage.moving]
  | queue p hst hm =>
    rw [hst] at ht
    have hp : p ∉ a.free := by simp [hi.mem_iff hm (ho p ht.2), ht.2]
    refine ⟨?_, ?_, ho, hf.stages hi ?_, fun q hq hmv => ?_⟩
    · exact List.nodup_append.mpr ⟨hn, List.nodup_singleton p, by grind⟩
    · grind [Stage.Ok]
    · grind [Stage.Ok]
    · have := hi.mem_iff hm hq
      have := hmv t
      grind [Stage.moving]
  | shutQueued p hst =>
    rw [hst] at ht
    obtain ⟨hm, hh, hp, hop⟩ := ht
    refine ⟨hn, hb, ?_, hf.stages hi ?_, fun q hq hmv => ?_⟩
    · grind
    · grind [Stage.Ok]
    · by_cases hqp : q = p
      · grind
      · have := hi.settled_before hf hq hmv (by simp [hst, Stage.moving, Ne.symm hqp])
        grind
  | shut p hst hm =>
    rw [hst] at ht
    have hp : p ∉ a.free := by simp [hi.mem_iff hm (ho p ht.2), ht.2]
    refine ⟨hn, hb, ?_, hf.stages hi ?_, fun q hq hmv => ?_⟩
    · grind
    · grind [Stage.Ok]
    · have := hi.mem_iff hm hq
      have := hmv t
      grind [Stage.moving]
  | queueShut p hst =>
    rw [hst] at ht
    obtain ⟨hm, hh, hp, hcl, hsz⟩ := ht
    refine ⟨?_, ?_, ho, hf.stages hi ?_, fun q hq hmv => ?_⟩
    · exact List.nodup_append.mpr ⟨hn, List.nodup_singleton p, by grind⟩
    · grind
    · grind [Stage.Ok]
    · by_cases hqp : q = p
      · grind
      · have := hi.settled_before hf hq hmv (by simp [hst, Stage.moving, Ne.symm hqp])
        grind

theorem Inv.reaches {a b : Pool τ} (hi : Inv a) (h : Relation.ReflTransGen AnyStep a b) :
    Inv b := by
  induction h with
  | refl => exact hi
  | tail _ h ih =>
    obtain ⟨t, ht⟩ := h
    exact ih.step ht

/-! Who has the locks and the mutex, without any of the conditions above. -/

structure Held (a : Pool τ) : Prop where
  holder : ∀ p t, a.holder p = some t → (a.stage t).slot = some p
  mutex : ∀ t, a.mutex = some t → (a.stage t).inside = true

/-- A thread that enters a stage is to have there what it has. -/
theorem Held.enter {a b : Pool τ} {t : τ} {s : Stage} (h : Held a)
    (hs : b.stage = Function.update a.stage t s)
    (hslot : ∀ p, b.holder p = some t → s.slot = some p)
    (hholder : ∀ p u, u ≠ t → b.holder p = some u → a.holder p = some u)
    (hinside : b.mutex = some t → s.inside = true)
    (hmutex : ∀ u, u ≠ t → b.mutex = some u → a.mutex = some u) : Held b := by
  refine ⟨fun p u hp => ?_, fun u hu => ?_⟩
  · by_cases hut : u = t
    · subst hut
      simpa [hs] using hslot p hp
    · simpa [hs, hut] using h.holder p u (hholder p u hut hp)
  · by_cases hut : u = t
    · subst hut
      simpa [hs] using hinside hu
    · simpa [hs, hut] using h.mutex u (hmutex u hut hu)

theorem Held.step {a b : Pool τ} {t : τ} (ha : Held a) (h : Step t a b) : Held b := by
  have hslot := fun p => ha.holder p t
  have hinside := ha.mutex t
  -- a mutex that is given up or taken by `t`
  have htaken : ∀ u, u ≠ t → (some t : Option τ) = some u → a.mutex = some u := fun u hu h =>
    absurd (Option.some.inj h).symm hu
  cases h with
  | extend hst => exact ⟨ha.holder, ha.mutex⟩
  | lock p hst hh =>
    rw [hst] at hslot hinside
    refine ha.enter rfl (fun q hq => ?_) (fun q u hu => setHolder_other (.inr rfl) hu) ?_
      fun _ _ hu => hu
    · by_cases hqp : q = p
      · rw [hqp]; rfl
      · exact absurd (hslot q (by simpa [hqp] using hq)) (by simp [Stage.slot])
    · exact fun hm => absurd (hinside hm) (by simp [Stage.inside])
  | see p hst hp =>
    rw [hst] at hslot hinside
    exact ha.enter rfl hslot (fun _ _ _ h => h) hinside fun _ _ h => h
  | forget p hst =>
    rw [hst] at hslot hinside
    exact ha.enter rfl hslot (fun _ _ _ h => h) hinside fun _ _ h => h
  | unlock p hst =>
    rw [hst] at hslot hinside
    refine ha.enter rfl (fun q hq => ?_) (fun q u hu => setHolder_other (.inl rfl) hu) hinside
      fun _ _ hu => hu
    by_cases hqp : q = p
    · simp [hqp] at hq
    · exact absurd (Option.some.inj (hslot q (by simpa [hqp] using hq))).symm hqp
  | reopen p hst hm hh =>
    rw [hst] at hslot
    exact ha.enter rfl hslot (fun _ _ _ h => h) (fun _ => rfl) htaken
  | unqueue p hst =>
    rw [hst] at hslot
    exact ha.enter rfl hslot (fun _ _ _ h => h) (fun _ => rfl) fun _ _ h => h
  | release hst =>
    rw [hst] at hslot
    exact ha.enter rfl hslot (fun _ _ _ h => h) (fun h => by cases h) fun _ _ h => by cases h
  | queue p hst hm | shut p hst hm =>
    rw [hst] at hslot
    exact ha.enter rfl hslot (fun _ _ _ h => h) (fun _ => rfl) htaken
  | shutQueued p hst | queueShut p hst =>
    rw [hst] at hslot
    exact ha.enter rfl hslot (fun _ _ _ h => h) (fun h => by cases h) fun _ _ h => by cases h

theorem Held.reaches {a b : Pool τ} (ha : Held a) (h : Relation.ReflTransGen AnyStep a b) :
    Held b := by
  induction h with
  | refl => exact ha
  | tail _ h ih =>
    obtain ⟨t, ht⟩ := h
    exact ih.step ht

end Lib.SlotPool
