import Sphere.Cor.Coroutine
import Sphere.Http.Worker

/-! A thread of `CoroutineWorker::work` from `7.cor/lib/corworker.cpp`. Its loop takes
events as the plain worker does, but hands each to the routine of the place's
connection; from `starting` to `ending` it runs that routine's function, `serve_client`,
for the place the routine was created for. -/

namespace Sphere.Cor

open Lib Net Http

/-- The calls of `yield` in `serve_client`: after an incomplete request, before the
response is written, when the socket takes no more of it. -/
inductive Point
  | reading
  | replied
  | writing
  deriving DecidableEq, Repr

/-- What a routine may store: an exception of the socket or of epoll. -/
inductive Failure
  | tcp (e : TcpError)
  | epoll
  deriving DecidableEq, Repr

/-- How the function goes on after a few calls on epoll or after `close_client`. -/
inductive Then
  | yield (k : Point)
  | finish
  | ret
  deriving DecidableEq, Repr

/-- `subscribe` and `unsubscribe` of the worker. -/
inductive Mod
  | subscribe (opt : OPTION)
  | unsubscribe (opt : OPTION)
  deriving DecidableEq, Repr

def Mod.apply (c : HttpConnection) : Mod → HttpConnection
  | .subscribe opt => c.subscribe opt
  | .unsubscribe opt => c.unsubscribe opt

/-- `astray` is where `entry` has returned into what worker `c` has saved. -/
inductive Pc
  | waiting
  | looping
  | entered
  | resuming
  | starting
  | reading
  | writing
  | modding (ms : List Mod) (k : Then)
  | finishing
  | checking (k : Then)
  | pushing (c : ℕ) (k : Then)
  | shutting (c : ℕ) (k : Then)
  | leaving
  | astray (c : ℕ)
  deriving DecidableEq, Repr

/-- `pConn` is the connection that `work` has fetched; `routine` and `place` belong to
the routine that it runs. -/
structure Worker where
  pc : Pc
  events : List Event
  pConn : ℕ
  routine : ℕ
  place : ℕ

/-- What is on a routine's stack: the connections fetched by `serve_client` and by the
function it has called last, the worker whose `ordinator` is the `o` of `entry`, and the one
into whose context `entry` returns, which `makecontext` has put there. Beside the stack,
`uc_link` of the routine's context. -/
structure Frame where
  serve : ℕ
  inner : ℕ
  first : ℕ
  link : ℕ
  ucLink : ℕ

/-- The function of a routine is the place it serves; `current` is that of each worker's
`ordinator`. -/
structure State where
  service : Service
  main : MainOrdinator ℕ Point Failure
  frame : ℕ → Frame
  current : ℕ → Option ℕ

/-- `guess` is how the function goes on after undefined behaviour, `stale` and `lost`
what a destroyed connection has for its option and its routine. -/
structure Input where
  reads : List ReadResult
  writes : List WriteResult
  reply : Responce
  guess : Next
  stale : Bool
  lost : Option ℕ
  stray : NodeList ℕ

abbrev Stepped := State × Worker × Bool

/-- What is done with the response of the listener. -/
def answer (c : HttpConnection) (reply : Responce) : HttpConnection :=
  { c.putResponce reply with read := [] }

/-- The calls on epoll that follow. -/
def answerMods (c : HttpConnection) : List Mod :=
  (if c.keepAlive then [] else [.unsubscribe READ]) ++ [.subscribe WRITE]

def State.setConn (st : State) (p : ℕ) (c : HttpConnection) : State :=
  { st with service := st.service.setConn p c }

def State.setFrame (st : State) (r : ℕ) (fr : Frame) : State :=
  { st with frame := Function.update st.frame r fr }

def State.setCurrent (st : State) (i : ℕ) (r : Option ℕ) : State :=
  { st with current := Function.update st.current i r }

/-- The current routine's function has ended or yielded. -/
def State.stop (st : State) (r : ℕ) (out : Stop Point Failure) : State :=
  match st.main.routines[r]? with
  | none => st
  | some routine => { st with main := st.main.update r (routine.stop out) }

/-- An exception leaves the function: it is stored, and `resume` throws it again. -/
def Worker.throw (st : State) (w : Worker) (e : Failure) : Stepped :=
  (st.stop w.routine (.throw e), w, true)

/-- How `try_read_request` goes on once it has not returned true. -/
def Worker.readEnd (st : State) (w : Worker) : Next → Stepped
  | .thrown e => w.throw st (.tcp e)
  | .undefined => (st, w, true)
  | .close _ => (st, { w with pc := .checking .ret }, false)
  | .rearm => (st, { w with pc := .modding [.subscribe READ] (.yield .reading) }, false)
  | .finish => (st, { w with pc := .finishing }, false)

/-- `try_read_request` up to a `yield`, and what `serve_client` does with the request. -/
def Worker.readStep (x : Input) (st : State) (w : Worker) : Stepped :=
  let c := st.service.conn w.place
  if c.id = (st.frame w.routine).inner then
    match tryReadRequest c x.reads with
    | (c, some .undefined) => w.readEnd (st.setConn w.place c) x.guess
    | (c, some next) => w.readEnd (st.setConn w.place c) next
    | (c, none) =>
      (st.setConn w.place (answer c x.reply),
        { w with pc := .modding (answerMods c) (.yield .replied) }, false)
  else w.readEnd st x.guess

/-- `try_write_responce` up to a `yield`; its loop is that of the plain worker, but it
waits while there is something left to write. -/
def Worker.writeStep (x : Input) (st : State) (w : Worker) : Stepped :=
  let c := st.service.conn w.place
  if c.id = (st.frame w.routine).inner then
    match tryWriteResponce c x.writes with
    | (c, .inr true) =>
      (st.setConn w.place c, { w with pc := .modding [.unsubscribe WRITE] .finish }, false)
    | (c, .inr false) =>
      if c.write = [] then (st.setConn w.place c, { w with pc := .finishing }, false)
      else (st.setConn w.place c,
        { w with pc := .modding [.subscribe WRITE] (.yield .writing) }, false)
    | (c, .inl (.thrown e)) => w.throw (st.setConn w.place c) (.tcp e)
    | (c, .inl _) => (st.setConn w.place c, { w with pc := .checking .finish }, false)
  else
    match x.guess with
    | .thrown e => w.throw st (.tcp e)
    | .undefined => (st, w, true)
    | .close _ => (st, { w with pc := .checking .finish }, false)
    | .rearm => (st, { w with pc := .modding [.subscribe WRITE] (.yield .writing) }, false)
    | .finish => (st, { w with pc := .finishing }, false)

/-- What `makecontext` puts on the stack of a routine that `create` hands out: the
constructor has just set `uc_link`, while `reset` takes it as the last `resume` has left it. -/
def State.linked (i : ℕ) (st : State) (r : ℕ) : Frame :=
  let link := if r < st.main.routines.length then (st.frame r).ucLink else i
  { st.frame r with link, ucLink := link }

/-- `if (!p_conn->routine()) p_conn->set_routine(create(..))`, where `p_conn` may be gone. -/
def Worker.enterStep (i : ℕ) (x : Input) (st : State) (w : Worker) (e : Event) : State × Worker :=
  let c := st.service.conn e.place
  match if c.id = w.pConn then c.routine else x.lost with
  | some r => (st, { w with pc := .resuming, routine := r })
  | none =>
    let (main, r) := st.main.create e.place
    (({ st with main }.setFrame r (st.linked i r)).setConn e.place
        (if c.id = w.pConn then { c with routine := some r } else c),
      { w with pc := .resuming, routine := r })

/-- The rest of `entry`: its `o` is that of the worker that has started the function, and
it returns into the context on the stack, not into that of the worker that resumes it. -/
def Worker.entryStep (i : ℕ) (st : State) (w : Worker) (routine : Routine ℕ Point Failure) :
    Stepped :=
  let frame := st.frame w.routine
  let st := { st with main :=
    { st.main.update w.routine { routine with finished := true } with
      finished := st.main.finished ++ [w.routine] } }.setCurrent frame.first none
  if frame.link = i then (st, { w with pc := .leaving }, routine.exception.isSome)
  else (st, { w with pc := .astray frame.link }, false)

/-- `resume`: into the function at its start or behind a `yield`, or to the end of
`entry`. -/
def Worker.resumeStep (i : ℕ) (st : State) (w : Worker) : Stepped :=
  match st.main.routines[w.routine]? with
  | none => (st, w, true)
  | some routine =>
    let here := (st.service.conn routine.func).id
    let w := { w with place := routine.func }
    if routine.finished then (st, { w with pc := .leaving }, false)
    else
      let frame := { st.frame w.routine with ucLink := i }
      let st := (st.setCurrent i (some w.routine)).setFrame w.routine frame
      match routine.ctx with
      | .entry =>
        (st.setFrame w.routine { frame with serve := here, first := i },
          { w with pc := .starting }, false)
      | .yielded .reading => (st, { w with pc := .reading }, false)
      | .yielded .replied =>
        (st.setFrame w.routine { frame with inner := here }, { w with pc := .writing }, false)
      | .yielded .writing => (st, { w with pc := .writing }, false)
      | .returned => w.entryStep i st routine

/-- The start of `serve_client`, up to the fetch at the start of `try_read_request`. -/
def Worker.startStep (x : Input) (st : State) (w : Worker) : Stepped :=
  ({ st with service := st.service.resetLastActivityTime w.place x.stray }.setFrame w.routine
      { st.frame w.routine with inner := (st.service.conn w.place).id },
    { w with pc := .reading }, false)

/-- `yield` saves into `current`, which the rest of another thread's `entry` may have
cleared. -/
def Worker.yieldStep (i : ℕ) (st : State) (w : Worker) (k : Point) : Stepped :=
  if st.current i = some w.routine then
    ((st.setCurrent i none).stop w.routine (.yield k), { w with pc := .leaving }, false)
  else (st, w, true)

def Worker.modStep (i : ℕ) (st : State) (w : Worker) (ms : List Mod) (k : Then) : Stepped :=
  match ms with
  | m :: ms =>
    match st.service.epollMod w.place (m.apply (st.service.conn w.place)) with
    | some s => ({ st with service := s }, { w with pc := .modding ms k }, false)
    | none => w.throw st .epoll
  | [] =>
    match k with
    | .yield k => w.yieldStep i st k
    | .finish => (st, { w with pc := .finishing }, false)
    | .ret => (st.stop w.routine .ret, { w with pc := .leaving }, false)

/-- `p_conn->epoll_option_ == ET_ONESHOT` at the end of `serve_client`, where `p_conn`
may be gone. -/
def Worker.isOneshot (x : Input) (st : State) (w : Worker) : Bool :=
  if (st.service.conn w.place).id = (st.frame w.routine).serve then
    (st.service.conn w.place).epollOption = ET_ONESHOT
  else x.stale

/-- `p_conn->set_routine(nullptr)`. -/
def Worker.dropRoutine (st : State) (w : Worker) : State :=
  if (st.service.conn w.place).id = (st.frame w.routine).serve then
    st.setConn w.place { st.service.conn w.place with routine := none }
  else st

def Worker.finishStep (x : Input) (st : State) (w : Worker) : Stepped :=
  if w.isOneshot x st then (st, { w with pc := .checking .ret }, false)
  else (w.dropRoutine st, { w with pc := .modding [.subscribe UNKNOWN] .ret }, false)

def Worker.step (i : ℕ) (x : Input) (st : State) (w : Worker) : Option Stepped :=
  let s := st.service
  match w.pc, w.events with
  | .waiting, _ => some (st, { w with pc := .looping }, false)
  | .looping, [] => some (st, { w with pc := .waiting }, false)
  | .looping, e :: _ =>
    if s.mutex e.place = none then
      some ({ st with service := s.setMutex e.place (some (.worker i)) },
        { w with pc := .entered, pConn := (s.conn e.place).id }, false)
    else none
  | .entered, e :: _ => some ((w.enterStep i x st e).1, (w.enterStep i x st e).2, false)
  | .resuming, _ :: _ => some (w.resumeStep i st)
  | .starting, _ :: _ => some (w.startStep x st)
  | .reading, _ :: _ => some (w.readStep x st)
  | .writing, _ :: _ => some (w.writeStep x st)
  | .modding ms k, _ :: _ => some (w.modStep i st ms k)
  | .finishing, _ :: _ => some (w.finishStep x st)
  | .checking k, _ :: _ =>
    if (s.conn w.place).valid then
      some (st, { w with pc := .pushing (s.conn w.place).id k }, false)
    else some (st, { w with pc := .modding [] k }, false)
  | .pushing c k, _ :: _ =>
    if s.closingMutex = none then
      some ({ st with service :=
          { s with closed := s.closed ++ [w.place], closingMutex := some (.worker i) } },
        { w with pc := .shutting c k }, false)
    else none
  | .shutting c k, _ :: _ =>
    let s := if (s.conn w.place).id = c then s.setConn w.place (s.conn w.place).close else s
    some ({ st with service := { s with closingMutex := none } },
      { w with pc := .modding [] k }, false)
  | .leaving, e :: es =>
    some ({ st with service := s.setMutex e.place none },
      { w with pc := .looping, events := es }, false)
  | .astray _, _ :: _ => none
  | _, [] => none

end Sphere.Cor
