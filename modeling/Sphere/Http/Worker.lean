import Sphere.Http.Acceptor

/-! A thread of `HttpWorker::work`, cut where another thread can come in between. The
worker holds the mutex of the place of the event in hand from `entered` to `leaving`;
what it does to the connection alone is one step. -/

namespace Sphere.Http

open Lib Net

/-- Where the thread is. `pushing` and `shutting` are inside `close_client`, which has
fetched the connection `c` of the place. -/
inductive Pc
  | waiting
  | looping
  | entered
  | serving
  | finishing
  | checking (k : After)
  | pushing (c : ℕ) (k : After)
  | shutting (c : ℕ) (k : After)
  | leaving
  deriving DecidableEq, Repr

/-- `events` is what is left of the batch, the event in hand first. `pConn` is the
connection that `work` has fetched for it. -/
structure Worker where
  pc : Pc
  events : List Event
  pConn : ℕ

def After.next : After → Pc
  | .finish => .finishing
  | .leave => .leaving

/-- What the step depends on besides the state: the script, how the worker goes on
after undefined behaviour of the parser, what the option of a destroyed connection
compares to and what a misused list turns into. -/
structure Input where
  script : Script
  guess : Next
  stale : Bool
  stray : NodeList ℕ

/-- The state after a step, and whether an exception has left the loop. -/
abbrev Stepped (ω : Type) := Service × ω × Bool

/-- `subscribe` and what follows it; an exception of epoll is not caught. -/
def Service.subscribeThen (s : Service) (p : ℕ) (opt : OPTION) (w : Worker) (pc : Pc) :
    Stepped Worker :=
  match s.subscribe p opt with
  | some s => (s, { w with pc }, false)
  | none => (s, w, true)

def Worker.serveStep (x : Input) (s : Service) (w : Worker) (e : Event) : Stepped Worker :=
  let served := serve (s.conn e.place) e x.script
  let s := s.setConn e.place served.1
  match if served.2 = .undefined then x.guess else served.2 with
  | .thrown _ | .undefined => (s, w, true)
  | .close k => (s, { w with pc := .checking k }, false)
  | .rearm => s.subscribeThen e.place READ w .leaving
  | .finish => (s, { w with pc := .finishing }, false)

/-- `p_conn->epoll_option_ == ET_ONESHOT`, where `p_conn` may be gone. -/
def Worker.isOneshot (x : Input) (s : Service) (w : Worker) (e : Event) : Bool :=
  if (s.conn e.place).id = w.pConn then (s.conn e.place).epollOption = ET_ONESHOT else x.stale

def Worker.finishStep (x : Input) (s : Service) (w : Worker) (e : Event) : Stepped Worker :=
  if w.isOneshot x s e then (s, { w with pc := .checking .leave }, false)
  else s.subscribeThen e.place UNKNOWN w .leaving

def Worker.step (i : ℕ) (x : Input) (s : Service) (w : Worker) : Option (Stepped Worker) :=
  match w.pc, w.events with
  | .waiting, _ => some (s, { w with pc := .looping }, false)
  | .looping, [] => some (s, { w with pc := .waiting }, false)
  | .looping, e :: es =>
    if s.mutex e.place = none then
      if (s.conn e.place).valid then
        some (s.setMutex e.place (some (.worker i)),
          { w with pc := .entered, pConn := (s.conn e.place).id }, false)
      else some (s, { w with events := es }, false)
    else none
  | .entered, e :: _ =>
    some (s.resetLastActivityTime e.place x.stray, { w with pc := .serving }, false)
  | .serving, e :: _ => some (w.serveStep x s e)
  | .finishing, e :: _ => some (w.finishStep x s e)
  | .checking k, e :: _ =>
    if (s.conn e.place).valid then
      some (s, { w with pc := .pushing (s.conn e.place).id k }, false)
    else some (s, { w with pc := k.next }, false)
  | .pushing c k, e :: _ =>
    if s.closingMutex = none then
      some ({ s with closed := s.closed ++ [e.place], closingMutex := some (.worker i) },
        { w with pc := .shutting c k }, false)
    else none
  | .shutting c k, e :: _ =>
    -- `p_conn->close()` reaches the place's connection if that is the one fetched
    let s := if (s.conn e.place).id = c then s.setConn e.place (s.conn e.place).close else s
    some ({ s with closingMutex := none }, { w with pc := k.next }, false)
  | .leaving, e :: es =>
    some (s.setMutex e.place none, { w with pc := .looping, events := es }, false)
  | _, [] => none

end Sphere.Http
