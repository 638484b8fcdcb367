import Sphere.Http.ClosedQueue
import Sphere.Lib.LockOrder

/-! The mutexes of `HttpService` and the order in which its threads take them. The model
takes a section under `timeout_mutex_` in one step; here its thread enters it first, and
the others wait for it to be left. -/

namespace Sphere.Http

open Lib Net SlotPool LockOrder

/-- `ordinator` is the mutex of the pool of routines, which only coroutine workers use. -/
inductive Mutex
  | connection (p : ℕ)
  | closing
  | timeout
  | ordinator
  deriving DecidableEq, Repr

/-- The mutex of a place comes before `closing_mutex_`, and this before the other two. -/
def Mutex.rank : Mutex → Fin 3
  | .connection _ => 0
  | .closing => 1
  | .timeout | .ordinator => 2

/-- The mutexes whose sections are one step. -/
def Mutex.brief : Mutex → Bool
  | .timeout | .ordinator => true
  | _ => false

/-- The mutex that the acceptor has to lock in order to go on. -/
def Acceptor.awaits : Acceptor → Option Mutex
  | .accepted _ | .closing _ | .counting => some .closing
  | .popped _ | .emplaced _ | .dumping | .popping _ => some .timeout
  | .scanning p => some (.connection p)
  | _ => none

def Worker.awaits (w : Worker) : Option Mutex :=
  match w.pc, w.events with
  | .looping, e :: _ => some (.connection e.place)
  | .entered, _ :: _ => some .timeout
  | .pushing _ _, _ :: _ => some .closing
  | _, _ => none

def Act.actor : Act → Option Thread
  | .acceptor _ => some .acceptor
  | .worker i _ => some (.worker i)
  | _ => none

def System.awaits (σ : System) : Thread → Option Mutex
  | .acceptor => σ.acceptor.awaits
  | .worker i => (σ.worker i).awaits

/-- Who has a mutex: `inside` says it of the brief sections. -/
def Service.owner (s : Service) (inside : Mutex → Option Thread) : Mutex → Option Thread
  | .connection p => s.mutex p
  | .closing => s.closingMutex
  | m => inside m

/-- A thread waits for the mutex that it has to lock, unless it is in the section. -/
def Service.locks (s : Service) (inside : Mutex → Option Thread)
    (awaits : Thread → Mutex → Prop) : Locks Thread Mutex where
  owner := s.owner inside
  awaits t m := awaits t m ∧ inside m ≠ some t

def locks (g : Guarded System Thread Mutex) : Locks Thread Mutex :=
  g.base.service.locks g.inside fun t m => g.base.awaits t = some m

/-- What a thread may have when it waits. -/
structure Waits (stage : Stage) (m : Mutex) : Prop where
  slot : m.rank = 0 → stage.slot = none
  inside : m.rank ≤ 1 → stage.inside = false

theorem Acceptor.awaits_waits (pushFirst : Bool) {a : Acceptor} {m : Mutex}
    (h : a.awaits = some m) : Waits (a.stage pushFirst) m := by
  cases a <;> cases h <;> exact ⟨by simp [Mutex.rank, Acceptor.stage, Stage.slot],
    by simp [Mutex.rank, Acceptor.stage, Stage.inside]⟩

theorem Worker.awaits_waits {w : Worker} {m : Mutex} (h : w.awaits = some m) :
    Waits w.stage m := by
  obtain ⟨pc, events, pConn⟩ := w
  cases events with
  | nil => cases pc <;> cases h
  | cons e es =>
    cases pc <;> cases h <;> exact ⟨by simp [Mutex.rank, Worker.stage, Stage.slot],
      by simp [Mutex.rank, Worker.stage, Stage.inside]⟩

theorem System.awaits_waits {σ : System} {t : Thread} {m : Mutex} (h : σ.awaits t = some m) :
    Waits (σ.stage t) m := by
  cases t with
  | acceptor => exact Acceptor.awaits_waits false h
  | worker i => exact Worker.awaits_waits h

end Sphere.Http
