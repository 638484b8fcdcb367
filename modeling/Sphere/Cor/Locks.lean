import Sphere.Cor.ClosedQueue
import Sphere.Http.Locks

/-! The mutexes of `CoroutineService`. Its workers take those that the workers of
`HttpService` do and that of the pool of routines: to get a routine, and to give back one
whose function has ended. What a routine does while another place is served is covered,
for it takes only mutexes that come after those of places. A worker that goes on in the
context of another one leaves the mutex of its place locked, and may come to wait for it. -/

namespace Sphere.Cor

open Lib Net Http SlotPool LockOrder

/-- The mutex that the worker has to lock in order to go on. -/
def Worker.awaits (x : Input) (st : State) (w : Worker) : Option Mutex :=
  match w.pc, w.events with
  | .looping, e :: _ => some (.connection e.place)
  | .entered, e :: _ =>
    let c := st.service.conn e.place
    if (if c.id = w.pConn then c.routine else x.lost) = none then some .ordinator else none
  | .resuming, _ :: _ =>
    match st.main.routines[w.routine]? with
    | none => none
    | some routine =>
      if routine.finished = false ∧ routine.ctx = .returned then some .ordinator else none
  | .starting, _ :: _ => some .timeout
  | .pushing _ _, _ :: _ => some .closing
  | _, _ => none

/-- What a worker waits for may depend on what a destroyed connection has for its routine. -/
def System.awaits (σ : System) (t : Thread) (m : Mutex) : Prop :=
  match t with
  | .acceptor => σ.acceptor.awaits = some m
  | .worker i => ∃ x, (σ.worker i).awaits x σ.state = some m

def Act.actor : Act → Option Thread
  | .acceptor _ => some .acceptor
  | .worker i _ | .stray i => some (.worker i)
  | _ => none

def locks (g : Guarded System Thread Mutex) : Locks Thread Mutex :=
  g.base.state.service.locks g.inside g.base.awaits

theorem Worker.awaits_waits {x : Input} {st : State} {w : Worker} {m : Mutex}
    (h : w.awaits x st = some m) : Waits w.stage m := by
  obtain ⟨pc, events, pConn, routine, place⟩ := w
  have hordinator : ∀ stage : Stage, Waits stage .ordinator := fun stage =>
    ⟨by simp [Mutex.rank], by simp [Mutex.rank]⟩
  cases events with
  | nil => cases pc <;> cases h
  | cons e es =>
    cases pc with
    | entered =>
      obtain ⟨-, rfl⟩ := by simpa [Worker.awaits] using h
      exact hordinator _
    | resuming =>
      simp only [Worker.awaits] at h
      split at h
      · cases h
      · obtain ⟨-, rfl⟩ := by simpa using h
        exact hordinator _
    | _ =>
      cases h <;> exact ⟨by simp [Mutex.rank, Worker.stage, Stage.slot],
        by simp [Mutex.rank, Worker.stage, Stage.inside]⟩

theorem System.awaits_waits {σ : System} {t : Thread} {m : Mutex} (h : σ.awaits t m) :
    Waits (σ.stage t) m := by
  cases t with
  | acceptor => exact Acceptor.awaits_waits true h
  | worker i =>
    obtain ⟨x, h⟩ := h
    exact Worker.awaits_waits h

/-- The brief section that the worker may be about to enter or inside. -/
def Worker.site (w : Worker) : Option Mutex :=
  match w.pc, w.events with
  | .entered, _ :: _ | .resuming, _ :: _ => some .ordinator
  | .starting, _ :: _ => some .timeout
  | _, _ => none

def System.site (σ : System) : Thread → Option Mutex
  | .acceptor => σ.acceptor.awaits.filter Mutex.brief
  | .worker i => (σ.worker i).site

instance (a : Act) : Decidable (∃ i, a = .stray i) :=
  match a with
  | .stray i => .isTrue ⟨i, rfl⟩
  | .acceptor _ | .worker _ _ | .clock _ | .raise _ _ => .isFalse nofun

end Sphere.Cor
