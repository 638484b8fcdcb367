import Sphere.Http.Connection
import Sphere.Lib.NodeList

/-! The shared state of an HTTP service and the operations on it, from
`6.http/lib/httpservice.cpp` and `httpworker.cpp`: the places and their connections,
the queue of closed places and the list of places in the order of their last activity.
An operation of the list that is given an iterator outside of it is undefined
behaviour; whatever list it leaves behind is the argument `stray`. -/

namespace Sphere.Http

open Lib Net

inductive Thread
  | acceptor
  | worker (i : ℕ)
  deriving DecidableEq, Repr

/-- `net::ConnectionAndData`. `timeoutIter` is the name of a node of the timeout list,
`none` while the iterator has not been set. -/
structure Place where
  conn : HttpConnection
  timeoutIter : Option ℕ
  mutex : Option Thread

/-- Place `p` exists once `p < size`. `accepted` counts the accepted sockets. -/
structure Service where
  size : ℕ
  place : ℕ → Place
  closed : List ℕ
  closingMutex : Option Thread
  timeod : NodeList ℕ
  accepted : ℕ
  now : ℤ
  connTimeo : ℕ
  kaConnTimeo : ℕ

/-- A service that has not accepted anything yet. -/
def Service.start (connTimeo kaConnTimeo : ℕ) : Service where
  size := 0
  place := fun _ => ⟨{ HttpConnection.make 0 0 with valid := false }, none, none⟩
  closed := []
  closingMutex := none
  timeod := .empty
  accepted := 0
  now := 0
  connTimeo := connTimeo
  kaConnTimeo := kaConnTimeo

/-- `connections_.size() - closed_.size()` on 64 bits. -/
def Service.connectionsSize (s : Service) : BitVec 64 :=
  BitVec.ofNat 64 s.size - BitVec.ofNat 64 s.closed.length

abbrev Service.conn (s : Service) (p : ℕ) : HttpConnection := (s.place p).conn

abbrev Service.iter (s : Service) (p : ℕ) : Option ℕ := (s.place p).timeoutIter

abbrev Service.mutex (s : Service) (p : ℕ) : Option Thread := (s.place p).mutex

def Service.setConn (s : Service) (p : ℕ) (c : HttpConnection) : Service :=
  { s with place := Function.update s.place p { s.place p with conn := c } }

def Service.setIter (s : Service) (p : ℕ) (n : ℕ) : Service :=
  { s with place := Function.update s.place p { s.place p with timeoutIter := some n } }

def Service.setMutex (s : Service) (p : ℕ) (o : Option Thread) : Service :=
  { s with place := Function.update s.place p { s.place p with mutex := o } }

section Fields

variable (s : Service) (p q n : ℕ) (c : HttpConnection) (o : Option Thread)

@[simp] theorem setConn_conn :
    (s.setConn p c).conn q = if q = p then c else s.conn q := by
  by_cases h : q = p <;> simp [Service.conn, Service.setConn, h]
@[simp] theorem setConn_iter : (s.setConn p c).iter q = s.iter q := by
  by_cases h : q = p <;> simp [Service.iter, Service.setConn, h]
@[simp] theorem setConn_mutex : (s.setConn p c).mutex q = s.mutex q := by
  by_cases h : q = p <;> simp [Service.mutex, Service.setConn, h]
@[simp] theorem setConn_size : (s.setConn p c).size = s.size := rfl
@[simp] theorem setConn_closed : (s.setConn p c).closed = s.closed := rfl
@[simp] theorem setConn_closingMutex : (s.setConn p c).closingMutex = s.closingMutex := rfl
@[simp] theorem setConn_timeod : (s.setConn p c).timeod = s.timeod := rfl

@[simp] theorem setIter_conn : (s.setIter p n).conn q = s.conn q := by
  by_cases h : q = p <;> simp [Service.conn, Service.setIter, h]
@[simp] theorem setIter_iter :
    (s.setIter p n).iter q = if q = p then some n else s.iter q := by
  by_cases h : q = p <;> simp [Service.iter, Service.setIter, h]
@[simp] theorem setIter_mutex : (s.setIter p n).mutex q = s.mutex q := by
  by_cases h : q = p <;> simp [Service.mutex, Service.setIter, h]
@[simp] theorem setIter_size : (s.setIter p n).size = s.size := rfl
@[simp] theorem setIter_closed : (s.setIter p n).closed = s.closed := rfl
@[simp] theorem setIter_closingMutex : (s.setIter p n).closingMutex = s.closingMutex := rfl
@[simp] theorem setIter_timeod : (s.setIter p n).timeod = s.timeod := rfl

@[simp] theorem setMutex_conn : (s.setMutex p o).conn q = s.conn q := by
  by_cases h : q = p <;> simp [Service.conn, Service.setMutex, h]
@[simp] theorem setMutex_iter : (s.setMutex p o).iter q = s.iter q := by
  by_cases h : q = p <;> simp [Service.iter, Service.setMutex, h]
@[simp] theorem setMutex_mutex :
    (s.setMutex p o).mutex q = if q = p then o else s.mutex q := by
  by_cases h : q = p <;> simp [Service.mutex, Service.setMutex, h]
@[simp] theorem setMutex_size : (s.setMutex p o).size = s.size := rfl
@[simp] theorem setMutex_closed : (s.setMutex p o).closed = s.closed := rfl
@[simp] theorem setMutex_closingMutex : (s.setMutex p o).closingMutex = s.closingMutex := rfl
@[simp] theorem setMutex_timeod : (s.setMutex p o).timeod = s.timeod := rfl

end Fields

/-- `splice(end, timeod_, timeout_iter)`, after which the iterator of the last place is
set to the last node. -/
def Service.shiftToBack (s : Service) (p : ℕ) (stray : NodeList ℕ) : Service :=
  match (s.iter p).bind s.timeod.spliceToBack with
  | none => { s with timeod := stray }
  | some l =>
    match l.back with
    | none => { s with timeod := l }
    | some (n, q) => { s with timeod := l }.setIter q n

def Service.resetLastActivityTime (s : Service) (p : ℕ) (stray : NodeList ℕ) : Service :=
  (s.setConn p { s.conn p with start := s.now }).shiftToBack p stray

/-- `timeod_.emplace_back(p)`, after which the place's iterator is the last node. -/
def Service.linkBack (s : Service) (p : ℕ) : Service :=
  { s with timeod := s.timeod.pushBack p }.setIter p s.timeod.next

/-- The end of `try_replace_closed_with_new_conn`. Unlike `shiftToBack` it sets the
iterator of the place itself. -/
def Service.relink (s : Service) (p : ℕ) (stray : NodeList ℕ) : Service :=
  if s.timeod.nodes = [] then s.linkBack p
  else
    match (s.iter p).bind s.timeod.spliceToBack with
    | none => { s with timeod := stray }
    | some l =>
      match l.back with
      | none => { s with timeod := l }
      | some (n, _) => { s with timeod := l }.setIter p n

/-- `epoll_.mod(p_place, option)` once the connection has been given its new option;
`none` when it throws because the socket is closed or not registered. -/
def Service.epollMod (s : Service) (p : ℕ) (c : HttpConnection) : Option Service :=
  if c.watch = .absent then none else some (s.setConn p { c with watch := .armed c.epollOption })

/-- `subscribe(p_place, opt)` of a worker. -/
def Service.subscribe (s : Service) (p : ℕ) (opt : OPTION) : Option Service :=
  s.epollMod p ((s.conn p).subscribe opt)

/-! The list operations touch nothing but the list and the iterators. -/

structure ListOnly (s s' : Service) : Prop where
  conn : ∀ q, s'.conn q = s.conn q
  mutex : ∀ q, s'.mutex q = s.mutex q
  size : s'.size = s.size
  closed : s'.closed = s.closed
  closingMutex : s'.closingMutex = s.closingMutex
  accepted : s'.accepted = s.accepted

theorem setList_only (s : Service) (l : NodeList ℕ) : ListOnly s { s with timeod := l } :=
  ⟨fun _ => rfl, fun _ => rfl, rfl, rfl, rfl, rfl⟩

theorem setListIter_only (s : Service) (l : NodeList ℕ) (p n : ℕ) :
    ListOnly s ({ s with timeod := l }.setIter p n) :=
  ⟨fun q => by simp, fun q => by simp, rfl, rfl, rfl, rfl⟩

theorem shiftToBack_only (s : Service) (p : ℕ) (stray : NodeList ℕ) :
    ListOnly s (s.shiftToBack p stray) := by
  unfold Service.shiftToBack
  split
  · exact setList_only s stray
  · split
    · exact setList_only s _
    · exact setListIter_only s _ _ _

theorem linkBack_only (s : Service) (p : ℕ) : ListOnly s (s.linkBack p) :=
  setListIter_only s _ _ _

theorem relink_only (s : Service) (p : ℕ) (stray : NodeList ℕ) :
    ListOnly s (s.relink p stray) := by
  unfold Service.relink
  split
  · exact linkBack_only s p
  · split
    · exact setList_only s stray
    · split
      · exact setList_only s _
      · exact setListIter_only s _ _ _

end Sphere.Http
