import Mathlib.Tactic

/-! The coroutines of `7.cor/lib/coroutine.cpp`, with `swapcontext` and `makecontext`
as plain switches of context. A function is a value of `φ` whose code runs on a world
`ω` from its start or from behind one of its calls of `yield`. -/

namespace Sphere.Cor

/-- How a stretch of a function's code ends; `π` says where it goes on after a `yield`. -/
inductive Stop (π ε : Type)
  | yield (k : π)
  | ret
  | throw (e : ε)
  deriving DecidableEq, Repr

/-- Where a saved context goes on: at the start of `entry`, in the function behind a
`yield`, or in `entry` behind the `swapcontext` that follows the function. -/
inductive Context (π : Type)
  | entry
  | yielded (k : π)
  | returned
  deriving DecidableEq, Repr

structure Routine (φ π ε : Type) where
  func : φ
  finished : Bool
  ctx : Context π
  exception : Option ε
  deriving DecidableEq, Repr

/-- A pointer to a routine is its number in the list. -/
structure MainOrdinator (φ π ε : Type) where
  routines : List (Routine φ π ε)
  finished : List ℕ
  deriving DecidableEq, Repr

/-- The code of the functions; an empty function returns at once. -/
structure Code (φ π ε ω : Type) where
  start : φ → ω → ω × Stop π ε
  behind : φ → π → ω → ω × Stop π ε

/-- The pool, `current` of the thread and the world. -/
structure Machine (φ π ε ω : Type) where
  main : MainOrdinator φ π ε
  current : Option ℕ
  world : ω
  deriving DecidableEq, Repr

/-- What `resume` does in the end. -/
inductive Resumed (ε : Type)
  | returned (b : Bool)
  | rethrown (e : ε)
  deriving DecidableEq, Repr

variable {φ π ε ω : Type}

/-- What the constructor leaves, and `reset` on a routine that is used again. -/
def Routine.fresh (function : φ) : Routine φ π ε :=
  { func := function, finished := false, ctx := .entry, exception := none }

def MainOrdinator.update (m : MainOrdinator φ π ε) (r : ℕ) (routine : Routine φ π ε) :
    MainOrdinator φ π ε :=
  { m with routines := m.routines.set r routine }

def MainOrdinator.create (m : MainOrdinator φ π ε) (function : φ) : MainOrdinator φ π ε × ℕ :=
  match m.finished with
  | [] => ({ m with routines := m.routines ++ [.fresh function] }, m.routines.length)
  | r :: finished => ({ m with finished }.update r (.fresh function), r)

def Machine.setRoutine (m : Machine φ π ε ω) (r : ℕ) (routine : Routine φ π ε) :
    Machine φ π ε ω :=
  { m with main := m.main.update r routine }

/-- What a routine's function leaves in it: `yield` saves the context, the end of the
function stores the exception and saves the context of `entry`. -/
def Routine.stop (routine : Routine φ π ε) : Stop π ε → Routine φ π ε
  | .yield k => { routine with ctx := .yielded k }
  | .ret => { routine with ctx := .returned }
  | .throw e => { routine with ctx := .returned, exception := some e }

/-- Only `yield` clears `current`; `entry` switches back before it does. -/
def Machine.stopped (m : Machine φ π ε ω) (r : ℕ) (routine : Routine φ π ε)
    (out : ω × Stop π ε) : Machine φ π ε ω :=
  { m.setRoutine r (routine.stop out.2) with
    current := match out.2 with
      | .yield _ => none
      | _ => m.current
    world := out.1 }

/-- The rest of `entry`: mark the routine, clear `current`, queue the routine. -/
def Machine.finish (m : Machine φ π ε ω) (r : ℕ) (routine : Routine φ π ε) : Machine φ π ε ω :=
  { m with
    main := { m.main.update r { routine with finished := true } with
      finished := m.main.finished ++ [r] }
    current := none }

/-- `swapcontext` into the routine and back. -/
def Machine.switchTo (code : Code φ π ε ω) (m : Machine φ π ε ω) (r : ℕ)
    (routine : Routine φ π ε) : Machine φ π ε ω :=
  match routine.ctx with
  | .entry => m.stopped r routine (code.start routine.func m.world)
  | .yielded k => m.stopped r routine (code.behind routine.func k m.world)
  | .returned => m.finish r routine

/-- `none` for a pointer that `create` has not handed out. -/
def Machine.resume (code : Code φ π ε ω) (m : Machine φ π ε ω) (r : ℕ) :
    Option (Machine φ π ε ω × Resumed ε) :=
  match m.main.routines[r]? with
  | none => none
  | some routine =>
    if routine.finished then some (m, .returned false)
    else
      let m := { m with current := some r }.switchTo code r routine
      match m.main.routines[r]?.bind (·.exception) with
      | some e => some (m, .rethrown e)
      | none => some (m, .returned true)

/-- `resume` on a routine that is not marked: what the switch leaves decides. -/
theorem Machine.resume_eq {code : Code φ π ε ω} {m : Machine φ π ε ω} {r : ℕ}
    {routine : Routine φ π ε} (hr : m.main.routines[r]? = some routine)
    (hf : routine.finished = false) :
    m.resume code r =
      let m' := { m with current := some r }.switchTo code r routine
      match m'.main.routines[r]?.bind (·.exception) with
      | some e => some (m', .rethrown e)
      | none => some (m', .returned true) := by
  unfold Machine.resume
  rw [hr]
  simp [hf]

theorem Machine.stopped_routine {m : Machine φ π ε ω} {r : ℕ} {routine : Routine φ π ε}
    (hr : r < m.main.routines.length) (out : ω × Stop π ε) (q : ℕ) :
    (m.stopped r routine out).main.routines[q]? =
      if q = r then some (routine.stop out.2) else m.main.routines[q]? := by
  by_cases hq : q = r
  · subst hq
    simp [Machine.stopped, Machine.setRoutine, MainOrdinator.update, hr]
  · simp [Machine.stopped, Machine.setRoutine, MainOrdinator.update, hq, Ne.symm hq]

end Sphere.Cor
