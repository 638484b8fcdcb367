import Sphere.Lib.Transition

/-! Threads that wait for mutexes. Where the mutexes have an order and no thread waits for
one that does not come after all that it has, no set of threads is deadlocked. A system
whose threads run a section under a mutex in one step becomes one in which they enter the
section first, so that the others wait. -/

namespace Lib.LockOrder

variable {T M σ α : Type*}

structure Locks (T M : Type*) where
  owner : M → Option T
  awaits : T → M → Prop

def Locks.Ordered {ρ : Type*} [Preorder ρ] (l : Locks T M) (rank : M → ρ) : Prop :=
  ∀ t m m', l.owner m = some t → l.awaits t m' → rank m < rank m'

/-- A system with the thread that takes an action and the mutex under which it takes it. -/
structure Sectioned (σ α T M : Type*) where
  step : σ → α → Option σ
  actor : α → Option T
  guard : σ → α → Option M

/-- A state together with who is inside the section of a mutex. -/
structure Guarded (σ T M : Type*) where
  base : σ
  inside : M → Option T

/-- The thread of an action enters the section for it, or takes it. -/
inductive GuardedAct (α : Type*)
  | enter (a : α)
  | act (a : α)

variable [DecidableEq T] [DecidableEq M]

/-- A thread that has taken its step is inside no section. -/
def left (inside : M → Option T) (o : Option T) : M → Option T :=
  fun m => if inside m = o then none else inside m

def Sectioned.guardedStep (sys : Sectioned σ α T M) (g : Guarded σ T M) :
    GuardedAct α → Option (Guarded σ T M)
  | .enter a =>
    match sys.guard g.base a with
    | none => none
    | some m =>
      if g.inside m = none then
        some { g with inside := Function.update g.inside m (sys.actor a) }
      else none
  | .act a =>
    if (sys.guard g.base a).all fun m => g.inside m = sys.actor a then
      (sys.step g.base a).map fun s => ⟨s, left g.inside (sys.actor a)⟩
    else none

abbrev Sectioned.guardedRun (sys : Sectioned σ α T M) (g : Guarded σ T M)
    (as : List (GuardedAct α)) : Option (Guarded σ T M) :=
  Transition.run sys.guardedStep g as

def Guarded.start (s : σ) : Guarded σ T M := ⟨s, fun _ => none⟩

/-- Where a thread can be inside a section, as far as only its own actions move it: that
is where an action of its needs the mutex. -/
structure Sectioned.Sites (sys : Sectioned σ α T M) (site : σ → T → Option M) : Prop where
  guard : ∀ s a m t, sys.guard s a = some m → sys.actor a = some t → site s t = some m
  other : ∀ s a s' t, sys.step s a = some s' → sys.actor a ≠ some t → site s' t = site s t

theorem Sectioned.Sites.step {sys : Sectioned σ α T M} {site : σ → T → Option M}
    (hc : sys.Sites site) {g g' : Guarded σ T M} {a : GuardedAct α}
    (hg : ∀ m t, g.inside m = some t → site g.base t = some m)
    (h : sys.guardedStep g a = some g') :
    ∀ m t, g'.inside m = some t → site g'.base t = some m := by
  intro m t hm
  cases a with
  | enter a =>
    simp only [Sectioned.guardedStep] at h
    split at h
    · cases h
    · rename_i n hn
      split at h <;> cases h
      dsimp only at hm ⊢
      by_cases hmn : m = n
      · subst hmn
        rw [Function.update_self] at hm
        exact hc.guard g.base a m t hn hm
      · rw [Function.update_of_ne hmn] at hm
        exact hg m t hm
  | act a =>
    obtain ⟨-, hact⟩ := Option.ite_none_right_eq_some.mp h
    obtain ⟨s, hs, rfl⟩ := Option.map_eq_some_iff.mp hact
    simp only [left] at hm
    split at hm
    · cases hm
    · rename_i hne
      rw [hc.other g.base a s t hs fun h => hne (hm.trans h.symm)]
      exact hg m t hm

theorem Sectioned.Sites.run {sys : Sectioned σ α T M} {site : σ → T → Option M}
    (hc : sys.Sites site) {s : σ} {as : List (GuardedAct α)} {g : Guarded σ T M}
    (h : sys.guardedRun (.start s) as = some g) {m : M} {t : T} (hm : g.inside m = some t) :
    site g.base t = some m :=
  Transition.run_preserves (I := fun g => ∀ m t, g.inside m = some t → site g.base t = some m)
    (fun _ _ _ hg hs => hc.step hg hs) (fun _ _ hm => by cases hm) h m t hm

end Lib.LockOrder
