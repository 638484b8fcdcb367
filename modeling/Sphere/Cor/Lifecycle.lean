import Sphere.Cor.Coroutine
import Sphere.Lib.Transition

/-! The lifecycle of coroutines on one thread. A function is taken by how often it
yields and how it ends; a trace counts the resumes each routine has had since it was
handed out. -/

namespace Sphere.Cor

open Lib

/-- A function that calls `yield` the given number of times and then returns or throws. -/
structure Func (ε : Type) where
  yields : ℕ
  exception : Option ε
  deriving DecidableEq, Repr

variable {ε : Type}

def Func.ending (f : Func ε) : Stop ℕ ε :=
  match f.exception with
  | none => .ret
  | some e => .throw e

/-- The stretch of code behind the `j`-th `yield`; the world counts the stretches run. -/
def Func.stretch (f : Func ε) (j n : ℕ) : ℕ × Stop ℕ ε :=
  (n + 1, if j < f.yields then .yield (j + 1) else f.ending)

def Func.code : Code (Func ε) ℕ ε ℕ where
  start f := f.stretch 0
  behind f j := f.stretch j

/-- What the resume that reaches the end of the function has to do. -/
def Func.outcome (f : Func ε) : Resumed ε :=
  match f.exception with
  | none => .returned true
  | some e => .rethrown e

abbrev Lifetime (ε : Type) := Machine (Func ε) ℕ ε ℕ

/-- `resumes r` counts since routine `r` was last handed out, `peak` is the largest
number of routines so far whose function had not returned. -/
structure Trace (ε : Type) where
  machine : Lifetime ε
  resumes : ℕ → ℕ
  peak : ℕ

inductive Call (ε : Type)
  | create (function : Func ε)
  | resume (r : ℕ)

def Trace.start : Trace ε := ⟨⟨⟨[], []⟩, none, 0⟩, fun _ => 0, 0⟩

/-- The number of routines whose function has not returned. -/
def Trace.unfinished (t : Trace ε) : ℕ :=
  (List.range t.machine.main.routines.length).countP fun r =>
    t.machine.main.routines[r]?.any fun routine => t.resumes r ≤ routine.func.yields

def Trace.create (t : Trace ε) (f : Func ε) : Trace ε :=
  let (main, r) := t.machine.main.create f
  let t' : Trace ε :=
    { t with machine := { t.machine with main }, resumes := Function.update t.resumes r 0 }
  { t' with peak := max t.peak t'.unfinished }

def Trace.step (t : Trace ε) : Call ε → Option (Trace ε)
  | .create f => some (t.create f)
  | .resume r => (t.machine.resume Func.code r).map fun m =>
      { t with machine := m.1, resumes := Function.update t.resumes r (t.resumes r + 1) }

/-- What a resume of a routine has to do if it is the one after `n` others and the
function yields `f.yields` times. -/
structure ResumeOk (n : ℕ) (r : ℕ) (f : Func ε) (m m' : Lifetime ε) (res : Resumed ε) : Prop where
  runs : n ≤ f.yields → m'.world = m.world + 1 ∧
    res = if n < f.yields then .returned true else f.outcome
  ends : n = f.yields → (∃ routine, m'.main.routines[r]? = some routine ∧ routine.finished) ∧
    m'.main.finished.count r = 1 ∧ m'.current = none
  idles : f.yields < n → m' = m ∧ res = .returned false

/-- What a call of `create` has to do: it hands out a new routine or one whose function
has returned, and there are never more routines than were unfinished at one time. -/
structure CreateOk (t : Trace ε) (f : Func ε) : Prop where
  returned : (t.machine.main.create f).2 = t.machine.main.routines.length ∨
    ∃ routine, t.machine.main.routines[(t.machine.main.create f).2]? = some routine ∧
      routine.func.yields < t.resumes (t.machine.main.create f).2
  bounded : (t.create f).machine.main.routines.length ≤ (t.create f).peak

def CallOk (t : Trace ε) : Call ε → Prop
  | .create f => CreateOk t f
  | .resume r => ∀ routine m res, t.machine.main.routines[r]? = some routine →
      t.machine.resume Func.code r = some (m, res) →
      ResumeOk (t.resumes r) r routine.func t.machine m res

/-- The call does not resume a routine more often than its function yields. -/
def Within (t : Trace ε) : Call ε → Prop
  | .create _ => True
  | .resume r => ∀ routine, t.machine.main.routines[r]? = some routine →
      t.resumes r < routine.func.yields

/-! While no routine is resumed past the last `yield` of its function, the pool holds
only routines inside their functions and the queue stays empty. -/

structure Alive (n : ℕ) (routine : Routine (Func ε) ℕ ε) : Prop where
  finished : routine.finished = false
  exception : routine.exception = none
  inside : n ≤ routine.func.yields
  ctx : routine.ctx = if n = 0 then .entry else .yielded n

structure Trace.AllAlive (t : Trace ε) : Prop where
  queue : t.machine.main.finished = []
  alive : ∀ r routine, t.machine.main.routines[r]? = some routine → Alive (t.resumes r) routine
  peak : t.machine.main.routines.length ≤ t.peak

/-- Both contexts of a live routine lead to the next stretch of its function. -/
theorem Alive.switchTo {n r : ℕ} {routine : Routine (Func ε) ℕ ε} (h : Alive n routine)
    (m : Lifetime ε) :
    m.switchTo Func.code r routine = m.stopped r routine (routine.func.stretch n m.world) := by
  unfold Machine.switchTo
  rw [h.ctx]
  by_cases hn : n = 0
  · simp [hn, Func.code]
  · simp [hn, Func.code]

/-- The resume of a live routine, whichever stretch it runs. -/
theorem Alive.resume {r : ℕ} {t : Trace ε} {routine : Routine (Func ε) ℕ ε}
    (h : Alive (t.resumes r) routine) (hr : t.machine.main.routines[r]? = some routine) :
    ∃ res, t.machine.resume Func.code r = some
      ({ t.machine with current := some r }.stopped r routine
        (routine.func.stretch (t.resumes r) t.machine.world), res) ∧
      (t.resumes r < routine.func.yields → res = .returned true) := by
  have hlen : r < t.machine.main.routines.length := (List.getElem?_eq_some_iff.mp hr).1
  rw [Machine.resume_eq hr h.finished]
  simp only [h.switchTo, Machine.stopped_routine (m := { t.machine with current := some r }) hlen,
    if_true, Option.bind_some]
  cases he : (routine.stop (routine.func.stretch (t.resumes r) t.machine.world).2).exception with
  | none => exact ⟨_, rfl, fun _ => rfl⟩
  | some e =>
    refine ⟨_, rfl, fun hlt => ?_⟩
    simp [Func.stretch, hlt, Routine.stop, h.exception] at he

/-- A resume before the last `yield` does all that it has to. -/
theorem Trace.AllAlive.resume {t : Trace ε} (ht : t.AllAlive) {r : ℕ}
    (hw : Within t (.resume r)) :
    CallOk t (.resume r) ∧ ∀ t', t.step (.resume r) = some t' → t'.AllAlive := by
  cases hr : t.machine.main.routines[r]? with
  | none =>
    refine ⟨fun routine m res hr' => by simp [hr] at hr', fun t' hs => ?_⟩
    simp [Trace.step, Machine.resume, hr] at hs
  | some routine =>
    have hlt := hw routine hr
    have ha := ht.alive r routine hr
    have hlen : r < t.machine.main.routines.length := (List.getElem?_eq_some_iff.mp hr).1
    obtain ⟨res, hres, htrue⟩ := ha.resume hr
    refine ⟨fun routine' m res' hr' hres' => ?_, fun t' hs => ?_⟩
    · obtain rfl : routine = routine' := Option.some.inj (hr.symm.trans hr')
      rw [hres] at hres'
      obtain ⟨rfl, rfl⟩ := Prod.mk.inj (Option.some.inj hres')
      refine ⟨fun _ => ⟨rfl, by rw [if_pos hlt, htrue hlt]⟩, fun heq => ?_, fun hgt => ?_⟩
      · omega
      · omega
    · simp only [Trace.step, hres, Option.map_some, Option.some.injEq] at hs
      subst hs
      refine ⟨ht.queue, fun q routine' hq => ?_, ?_⟩
      · dsimp only at hq ⊢
        rw [Machine.stopped_routine (m := { t.machine with current := some r }) hlen] at hq
        split at hq
        · rename_i heq
          subst heq
          obtain rfl := Option.some.inj hq
          simp only [Func.stretch, hlt, if_true, Routine.stop, Function.update_self]
          exact ⟨ha.finished, ha.exception, hlt, by simp⟩
        · rename_i hne
          simpa [hne] using ht.alive q routine' hq
      · simpa [Machine.stopped, Machine.setRoutine, MainOrdinator.update] using ht.peak

/-- The next resume reaches the end of the function and leaves the routine unmarked. -/
theorem Trace.AllAlive.resume_end {t : Trace ε} (ht : t.AllAlive) {r : ℕ}
    {routine : Routine (Func ε) ℕ ε} (hr : t.machine.main.routines[r]? = some routine)
    (heq : t.resumes r = routine.func.yields) : ¬ CallOk t (.resume r) := by
  intro hok
  have ha := ht.alive r routine hr
  have hlen : r < t.machine.main.routines.length := (List.getElem?_eq_some_iff.mp hr).1
  obtain ⟨res, hres, -⟩ := ha.resume hr
  obtain ⟨⟨routine', hr', hfin⟩, -, -⟩ := (hok routine _ res hr hres).ends heq
  rw [Machine.stopped_routine (m := { t.machine with current := some r }) hlen, if_pos rfl] at hr'
  obtain rfl := Option.some.inj hr'
  have hunmarked : ∀ stop, (routine.stop stop).finished = routine.finished := by
    intro stop
    cases stop <;> rfl
  rw [hunmarked, ha.finished] at hfin
  exact absurd hfin (by simp)

/-- With an empty queue `create` adds a routine, and all of them are unfinished. -/
theorem Trace.AllAlive.create {t : Trace ε} (ht : t.AllAlive) (f : Func ε) :
    CreateOk t f ∧ (t.create f).AllAlive := by
  have hcreate : t.machine.main.create f =
      ({ t.machine.main with routines := t.machine.main.routines ++ [.fresh f] },
        t.machine.main.routines.length) := by
    simp [MainOrdinator.create, ht.queue]
  have halive : ∀ r routine, (t.create f).machine.main.routines[r]? = some routine →
      Alive ((t.create f).resumes r) routine := by
    intro r routine hr
    simp only [Trace.create, hcreate] at hr ⊢
    by_cases hlen : r = t.machine.main.routines.length
    · subst hlen
      obtain rfl : Routine.fresh f = routine := by simpa using hr
      exact ⟨rfl, rfl, by simp, by simp [Routine.fresh]⟩
    · rw [Function.update_of_ne hlen]
      refine ht.alive r routine ?_
      have hlt := (List.getElem?_eq_some_iff.mp hr).1
      rwa [List.getElem?_append_left (by simp at hlt; omega)] at hr
  have hunfinished : (t.create f).unfinished = (t.create f).machine.main.routines.length := by
    unfold Trace.unfinished
    rw [List.countP_eq_length.mpr, List.length_range]
    intro r hr
    have hlt := List.mem_range.mp hr
    rw [List.getElem?_eq_getElem hlt]
    simpa using (halive r _ (List.getElem?_eq_getElem hlt)).inside
  have hpeak : (t.create f).machine.main.routines.length ≤ (t.create f).peak := by
    rw [← hunfinished]
    exact le_max_right _ _
  exact ⟨⟨.inl (by rw [hcreate]), hpeak⟩, by simpa [Trace.create, hcreate] using ht.queue,
    halive, hpeak⟩

/-- A call keeps all routines alive and does what it has to, if and only if it does not
resume a routine past the last `yield` of its function. -/
theorem Trace.AllAlive.call_iff {t : Trace ε} (ht : t.AllAlive) (c : Call ε) :
    (CallOk t c ↔ Within t c) ∧ (Within t c → ∀ t', t.step c = some t' → t'.AllAlive) := by
  cases c with
  | create f =>
    refine ⟨⟨fun _ => trivial, fun _ => (ht.create f).1⟩, fun _ t' hs => ?_⟩
    obtain rfl : t.create f = t' := Option.some.inj hs
    exact (ht.create f).2
  | resume r =>
    refine ⟨⟨fun hok routine hr => ?_, fun hw => (ht.resume hw).1⟩, fun hw => (ht.resume hw).2⟩
    have hinside := (ht.alive r routine hr).inside
    by_contra hlt
    exact ht.resume_end hr (by omega) hok

theorem Trace.start_allAlive : (Trace.start : Trace ε).AllAlive :=
  ⟨rfl, fun r routine hr => by simp [Trace.start] at hr, le_rfl⟩

/-- Every call of a sequence behaves as a coroutine's lifecycle demands if and only if
no routine is resumed more often than its function yields. -/
theorem lifecycle_iff (calls : List (Call ε)) :
    Transition.Along Trace.step CallOk .start calls ↔
      Transition.Along Trace.step Within .start calls :=
  Transition.along_iff (fun _ c ht => ht.call_iff c) Trace.start_allAlive

/-- A function that does not yield, run once: it has returned and is not marked. -/
theorem lifecycle_broken_by_one_resume :
    ¬ ∀ calls : List (Call ℕ), Transition.Along Trace.step CallOk .start calls := by
  intro h
  have hok := (h [.create ⟨0, none⟩, .resume 0]).2.1
  obtain ⟨⟨routine, hr, hfin⟩, -, -⟩ :=
    (hok ⟨⟨0, none⟩, false, .entry, none⟩ _ _ rfl rfl).ends rfl
  obtain rfl : (⟨⟨0, none⟩, false, .returned, none⟩ : Routine (Func ℕ) ℕ ℕ) = routine :=
    Option.some.inj hr
  exact absurd hfin (by decide)

end Sphere.Cor
