import Sphere.Cor.Worker
import Sphere.Http.System

/-! `CoroutineService` with its threads: the acceptor it shares with `HttpService` but
for the order inside the scan, coroutine workers, the clock and epoll. -/

namespace Sphere.Cor

open Lib Net Http

/-- Where `taken` is set, another thread has gone on in the worker's calls of `work` and
`resume`, on the worker's stack. -/
structure System where
  state : State
  acceptor : Acceptor
  worker : ℕ → Worker
  taken : ℕ → Bool
  halted : Bool

def System.start (connTimeo kaConnTimeo : ℕ) : System where
  state := ⟨.start connTimeo kaConnTimeo, ⟨[], []⟩, fun _ => ⟨0, 0, 0, 0, 0⟩, fun _ => none⟩
  acceptor := .idle
  worker := fun _ => ⟨.waiting, [], 0, 0, 0⟩
  taken := fun _ => false
  halted := false

/-- `stray i` is the thread of worker `i` going on where another worker has called
`swapcontext` last. -/
inductive Act
  | acceptor (x : AcceptorInput)
  | worker (i : ℕ) (x : Input)
  | clock (t : ℤ)
  | raise (i : ℕ) (e : Event)
  | stray (i : ℕ)

def System.setService (σ : System) (s : Service) : System :=
  { σ with state := { σ.state with service := s } }

/-- The worker is in the function of a routine, so its call of `resume` has not returned. -/
def Worker.away (w : Worker) : Bool :=
  match w.pc with
  | .starting | .reading | .writing | .modding _ _ | .finishing | .checking _ | .pushing _ _
  | .shutting _ _ => true
  | _ => false

/-- The thread of worker `i` comes back from `swapcontext` in place of that of worker `c`,
whose events, connection and routine it finds on the stack. Where `c` has returned from the
call, or another thread has, the behaviour is undefined. -/
def System.goAstray (σ : System) (i c : ℕ) : System :=
  let w := σ.worker c
  if w.away ∧ σ.taken c = false then
    { σ with
      worker := Function.update σ.worker i { w with pc := .leaving }
      taken := Function.update σ.taken c true
      halted := (σ.state.main.routines[w.routine]?.bind (·.exception)).isSome }
  else { σ with halted := true }

/-- A worker that comes back to a call in which another thread has gone on has no defined
behaviour either. -/
def System.step (σ : System) (a : Act) : Option System :=
  if σ.halted then none
  else
    match a with
    | .acceptor x =>
      (σ.acceptor.step true x σ.state.service).map fun r =>
        { σ.setService r.1 with acceptor := r.2 }
    | .worker i x =>
      if σ.taken i ∧ (σ.worker i).pc = .leaving then some { σ with halted := true }
      else
        ((σ.worker i).step i x σ.state).map fun r =>
          { σ with state := r.1, worker := Function.update σ.worker i r.2.1, halted := r.2.2 }
    | .clock t => some (σ.setService { σ.state.service with now := t })
    | .raise i e =>
      if (σ.worker i).pc = .waiting then
        (σ.state.service.raise e).map fun s =>
          { σ.setService s with
            worker := Function.update σ.worker i
              { σ.worker i with events := (σ.worker i).events ++ [e] } }
      else none
    | .stray i =>
      match (σ.worker i).pc, (σ.worker i).events with
      | .astray c, _ :: _ => some (σ.goAstray i c)
      | _, _ => none

/-- What an action does, and when. -/
inductive System.Acts (σ : System) : Act → System → Prop
  | acceptor {x : AcceptorInput} {s : Service} {a : Acceptor}
      (hs : σ.acceptor.step true x σ.state.service = some (s, a)) :
      Acts σ (.acceptor x) { σ.setService s with acceptor := a }
  | worker {i : ℕ} {x : Input} {st : State} {w : Worker} {out : Bool}
      (hs : (σ.worker i).step i x σ.state = some (st, w, out)) :
      Acts σ (.worker i x)
        { σ with state := st, worker := Function.update σ.worker i w, halted := out }
  | taken {i : ℕ} {x : Input} (htaken : σ.taken i = true) (hpc : (σ.worker i).pc = .leaving) :
      Acts σ (.worker i x) { σ with halted := true }
  | clock (t : ℤ) : Acts σ (.clock t) (σ.setService { σ.state.service with now := t })
  | raise {i : ℕ} {e : Event} {s : Service} (hpc : (σ.worker i).pc = .waiting)
      (hs : σ.state.service.raise e = some s) :
      Acts σ (.raise i e)
        { σ.setService s with
          worker := Function.update σ.worker i
            { σ.worker i with events := (σ.worker i).events ++ [e] } }
  | stray {i c : ℕ} {e : Event} {es : List Event} (hpc : (σ.worker i).pc = .astray c)
      (he : (σ.worker i).events = e :: es) : Acts σ (.stray i) (σ.goAstray i c)

theorem System.step_acts {σ σ' : System} {a : Act} (h : σ.step a = some σ') : σ.Acts a σ' := by
  obtain ⟨-, h⟩ := Option.ite_none_left_eq_some.mp h
  cases a with
  | acceptor x =>
    obtain ⟨⟨s, a⟩, hs, rfl⟩ := Option.map_eq_some_iff.mp h
    exact .acceptor hs
  | worker i x =>
    dsimp only at h
    split at h
    · rename_i htaken
      obtain rfl := Option.some.inj h
      exact .taken htaken.1 htaken.2
    · obtain ⟨⟨st, w, out⟩, hs, rfl⟩ := Option.map_eq_some_iff.mp h
      exact .worker hs
  | clock t =>
    obtain rfl := Option.some.inj h
    exact .clock t
  | raise i e =>
    obtain ⟨hpc, h⟩ := Option.ite_none_right_eq_some.mp h
    obtain ⟨s, hs, rfl⟩ := Option.map_eq_some_iff.mp h
    exact .raise hpc hs
  | stray i =>
    dsimp only at h
    split at h
    · rename_i c e es hpc he
      obtain rfl := Option.some.inj h
      exact .stray hpc he
    · cases h

/-- Only the worker that goes on elsewhere changes. -/
theorem System.goAstray_worker {σ : System} {i c j : ℕ} (hj : j ≠ i) :
    (σ.goAstray i c).worker j = σ.worker j := by
  unfold System.goAstray
  dsimp only
  split
  · exact Function.update_of_ne hj ..
  · rfl

abbrev System.run (σ : System) (as : List Act) : Option System := Transition.run System.step σ as

end Sphere.Cor
