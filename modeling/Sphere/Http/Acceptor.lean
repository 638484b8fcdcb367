import Sphere.Http.Service

/-! The accepting thread, `run` of `6.http/lib/httpservice.cpp` and of
`7.cor/lib/corservice.cpp`, cut where another thread can come in between: each section
under `timeout_mutex_` is one step, a section under `closing_mutex_` or a place's mutex
is as many as it has inner pieces. The two services differ in the order in which the
scan closes a connection and queues its place. -/

namespace Sphere.Http

open Lib Net

/-- Where the thread is in its loop. -/
inductive Acceptor
  | idle
  | accepted (id : ℕ)
  | replaced (p : ℕ)
  | popped (p : ℕ)
  | emplacing (id : ℕ)
  | emplaced (p : ℕ)
  | placed (p : ℕ)
  | dumping
  | scanning (p : ℕ)
  | closing (p : ℕ)
  | halfClosed (p : ℕ)
  | popping (p : ℕ)
  | counting
  deriving DecidableEq, Repr

/-- What the step depends on besides the state: whether the system call succeeds and
what a misused list turns into. -/
structure AcceptorInput where
  ok : Bool
  stray : NodeList ℕ

/-- `close_if_timed_out` picks the timeout by the kind of the connection. -/
def Service.timeo (s : Service) (p : ℕ) : ℕ :=
  if (s.conn p).keepAlive then s.kaConnTimeo else s.connTimeo

def Service.timedOut (s : Service) (p : ℕ) : Bool := (s.conn p).isTimedOut s.now (s.timeo p)

/-- The place gets a connection for the accepted socket `id`. -/
def Service.putConn (s : Service) (p id : ℕ) : Service := s.setConn p (HttpConnection.make id s.now)

/-- `epoll_.add`, which fails on a closed socket; the loop catches its exception. -/
def Service.registerConn (s : Service) (p : ℕ) (ok : Bool) : Service :=
  let c := { s.conn p with epollOption := READ + ET_ONESHOT }
  s.setConn p (if ok && c.valid then { c with watch := .armed c.epollOption } else c)

/-- The two halves of a close by the scan, in the order of `HttpService` or, with
`pushFirst`, of `CoroutineService`. -/
def Service.scanClose (s : Service) (p : ℕ) (push : Bool) : Service :=
  if push then { s with closed := s.closed ++ [p] } else s.setConn p (s.conn p).close

def Acceptor.step (pushFirst : Bool) (x : AcceptorInput) (s : Service) :
    Acceptor → Option (Service × Acceptor)
  | .idle =>
    if x.ok then some ({ s with accepted := s.accepted + 1 }, .accepted s.accepted)
    else some (s, .dumping)
  | .accepted id =>
    -- `try_replace_closed_with_new_conn` up to the new connection
    if s.closingMutex = none then
      match s.closed.head? with
      | none => some (s, .emplacing id)
      | some p => some ({ s.putConn p id with closingMutex := some .acceptor }, .replaced p)
    else none
  | .replaced p => some ({ s with closed := s.closed.tail }, .popped p)
  | .popped p => some ({ s.relink p x.stray with closingMutex := none }, .placed p)
  | .emplacing id => some ({ s.putConn s.size id with size := s.size + 1 }, .emplaced s.size)
  | .emplaced p => some (s.linkBack p, .placed p)
  | .placed p => some (s.registerConn p x.ok, .dumping)
  | .dumping =>
    match s.timeod.front with
    | none => some (s, .counting)
    | some (_, p) => some (s, .scanning p)
  | .scanning p =>
    if s.mutex p = none then
      if (s.conn p).valid ∧ s.timedOut p then some (s.setMutex p (some .acceptor), .closing p)
      else some (s, .counting)
    else none
  | .closing p =>
    if s.closingMutex = none then
      some ({ s.scanClose p pushFirst with closingMutex := some .acceptor }, .halfClosed p)
    else none
  | .halfClosed p =>
    some ({ (s.scanClose p !pushFirst).setMutex p none with closingMutex := none }, .popping p)
  | .popping _ => some ({ s with timeod := s.timeod.popFront }, .dumping)
  | .counting => if s.closingMutex = none then some (s, .idle) else none

end Sphere.Http
