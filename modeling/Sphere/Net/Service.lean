import Sphere.Lib.Transition
import Sphere.Net.Connection

/-! `net::Service::run`, event by event. What the kernel answers and what the listener does
in its callbacks are inputs of the event that is handled. -/

namespace Sphere.Net

/-- `EPOLLRDHUP` -/
def CLOSE : OPTION := ⟨0x2000⟩

def EPOLLERR : OPTION := ⟨0x8⟩

/-- `fd` is the number `find_if` compares, -1 once the socket is closed. `received` is all
that the socket has given and `written` all that was passed to `write`; the program reads
neither. -/
structure Client extends BufferedConnection where
  fd : ℤ
  received : List UInt8
  written : List UInt8

namespace Client

/-- As `accept_non_block` hands it over. -/
def make (id : ℕ) (fd : ℤ) : Client :=
  { id, valid := true, read := [], write := [], epollOption := UNKNOWN, watch := .absent,
    sent := [], fd, received := [], written := [] }

def put (c : Client) (data : List UInt8) : Client :=
  { c with write := c.write ++ data, written := c.written ++ data }

def subscribe (c : Client) (opt : OPTION) : Client :=
  { c with epollOption := c.epollOption + opt + CLOSE }

def unsubscribe (c : Client) (opt : OPTION) : Client :=
  { c with epollOption := c.epollOption - opt + CLOSE }

/-- Closing the descriptor also takes it out of epoll. -/
def close (c : Client) : Client :=
  { c with epollOption := UNKNOWN, valid := false, watch := .absent, fd := -1 }

/-- `read_to_buffer`, and what the socket has given by then. -/
def readToBuffer (c : Client) (r : ReadResult) : Except TcpError (ℕ × Client) :=
  match c.toBufferedConnection.readToBuffer r with
  | .error e => .error e
  | .ok (size, b) =>
    .ok (size, { c with
      toBufferedConnection := b
      received := c.received ++ match r with | .data buf => buf.1 | .fail _ => [] })

def writeFromBuffer (c : Client) (r : WriteResult) : Except TcpError (ℕ × Client) :=
  match c.toBufferedConnection.writeFromBuffer r with
  | .error e => .error e
  | .ok (size, b) => .ok (size, { c with toBufferedConnection := b })

end Client

inductive Callback
  | onNewConnection
  | onClose
  | onWriteDone
  | onReadAvailable
  | onError
  deriving DecidableEq, Repr

/-- The public operations of a connection. `read` copies the buffer. -/
inductive Act
  | write (data : List UInt8)
  | read
  | subscribe (opt : OPTION)
  | unsubscribe (opt : OPTION)
  | close
  deriving DecidableEq, Repr

def Act.apply (c : Client) : Act → Client
  | .write data => c.put data
  | .read => c
  | .subscribe opt => c.subscribe opt
  | .unsubscribe opt => c.unsubscribe opt
  | .close => c.close

structure EpollEvent where
  fd : ℤ
  events : OPTION
  deriving DecidableEq, Repr

inductive Exception
  | tcp (e : TcpError)
  | epoll
  deriving DecidableEq, Repr

/-- What the kernel answers while one event is handled: the number of the accepted socket,
whether `epoll_ctl` adds and modifies, what is read and how much is written. `stale` is
whether a test of the memory of a destroyed connection ends in an `EPollError`. -/
structure Kernel where
  accept : Except ℕ ℤ
  add : Bool
  mod : Bool
  read : ReadResult
  write : WriteResult
  stale : Bool

/-- What the listener does in each of its callbacks, with the connection it does it to:
the one it is called for, or another that it still has a reference of. -/
def Listener := Callback → List (ℕ × Act)

/-- `batch` is what is left of `epoll_events`. Beside the state of the service: the numbers
of the connections that were closed, the connections that were erased, the callbacks with
the connection as they found it, and whether an erased connection, or the end iterator, was
dereferenced. -/
structure Service where
  server : ℤ
  connections : List Client
  batch : List EpollEvent
  next : ℕ
  exception : Option Exception
  closed : List ℕ
  erased : List Client
  log : List (Callback × Client)
  erasedUsed : Bool
  endUsed : Bool

/-- The classification in `3.tcp/lib/server.cpp`. -/
def acceptError (errno : ℕ) : TcpError :=
  if errno = EAGAIN ∨ errno = EWOULDBLOCK ∨ errno = EINPROGRESS then .timeOut errno
  else .error errno

namespace Service

def start (server : ℤ) : Service :=
  ⟨server, [], [], 0, none, [], [], [], false, false⟩

def conn (σ : Service) (k : ℕ) : Option Client := σ.connections.find? fun c => c.id = k

/-- Applies a change to the connection with the given number. -/
def modify (σ : Service) (k : ℕ) (f : Client → Client) : Service :=
  { σ with connections := σ.connections.map fun c => if c.id = k then f c else c }

/-- An operation on a connection that still exists. -/
def act (σ : Service) (a : ℕ × Act) : Service :=
  let σ' := σ.modify a.1 fun c => a.2.apply c
  if a.2 = .close ∧ (σ.conn a.1).isSome then { σ' with closed := a.1 :: σ.closed } else σ'

def call (σ : Service) (listener : Listener) (cb : Callback) (k : ℕ) : Service :=
  match σ.conn k with
  | none => σ
  | some c => (listener cb).foldl act { σ with log := (cb, c) :: σ.log }

/-- The exception leaves `run`; the rest of the batch is dropped. -/
def throw (σ : Service) (e : Exception) : Service :=
  { σ with batch := [], exception := some e }

/-- `epoll_.mod` with the options of the connection. -/
def epollMod (σ : Service) (k : ℕ) (ok : Bool) : Service :=
  if ok then σ.modify k fun c => { c with watch := .armed c.epollOption } else σ.throw .epoll

/-- `if (p_conn->socket().valid()) epoll_.mod(..)` -/
def rearm (σ : Service) (k : ℕ) (kernel : Kernel) : Service :=
  match σ.conn k with
  | none =>
    let σ' := { σ with erasedUsed := true }
    if kernel.stale then σ'.throw .epoll else σ'
  | some c => if c.valid then σ.epollMod k kernel.mod else σ

/-- `connections_.erase(it_client)` -/
def erase (σ : Service) (k : ℕ) : Service :=
  { σ with
    connections := σ.connections.filter fun c => c.id ≠ k
    erased := σ.connections.filter (fun c => c.id = k) ++ σ.erased }

/-- `connections_.emplace_back(..)` -/
def emplace (σ : Service) (fd : ℤ) : Service :=
  { σ with connections := σ.connections ++ [Client.make σ.next fd], next := σ.next + 1 }

def handleServer (σ : Service) (kernel : Kernel) (listener : Listener) : Service :=
  match kernel.accept with
  | .error errno => σ.throw (.tcp (acceptError errno))
  | .ok fd =>
    let k := σ.next
    let σ := σ.emplace fd
    if kernel.add then
      let σ := σ.modify k fun c => { c with watch := .armed CLOSE }
      (σ.call listener .onNewConnection k).rearm k kernel
    else σ.throw .epoll

/-- The branches on the event's bits; `none` when an exception leaves them. -/
def dispatch (σ : Service) (ev : EpollEvent) (c : Client) (kernel : Kernel)
    (listener : Listener) : Except TcpError Service :=
  if ev.events.has EPOLLERR then .ok (σ.call listener .onError c.id)
  else if ev.events.has READ then
    match c.readToBuffer kernel.read with
    | .error e => .error e
    | .ok (size, c') =>
      let σ := σ.modify c.id fun _ => c'
      .ok (σ.call listener (if size = 0 then .onError else .onReadAvailable) c.id)
  else if ev.events.has WRITE then
    if c.write ≠ [] then
      match c.writeFromBuffer kernel.write with
      | .error e => .error e
      | .ok (size, c') =>
        let σ := σ.modify c.id fun _ => c'
        .ok (if size = 0 then σ.call listener .onError c.id else σ)
    else .ok (σ.call listener .onWriteDone c.id)
  else .ok σ

/-- `if (p_conn->epoll_option_ == OPTION::UNKNOWN || event.events & EPOLLRDHUP)` -/
def ends (σ : Service) (ev : EpollEvent) (k : ℕ) : Bool :=
  (σ.conn k).any fun c => c.epollOption = UNKNOWN ∨ ev.events.has CLOSE

def handleClient (σ : Service) (ev : EpollEvent) (c : Client) (kernel : Kernel)
    (listener : Listener) : Service :=
  match σ.dispatch ev c kernel listener with
  | .error e => σ.throw (.tcp e)
  | .ok σ =>
    if σ.ends ev c.id then
      (((σ.call listener .onClose c.id).act (c.id, .close)).erase c.id).rearm c.id kernel
    else σ.rearm c.id kernel

def handle (σ : Service) (ev : EpollEvent) (kernel : Kernel) (listener : Listener) : Service :=
  if ev.fd = σ.server then σ.handleServer kernel listener
  else match σ.connections.find? fun c => c.fd = ev.fd with
    | none => { σ with batch := [], endUsed := true }
    | some c => σ.handleClient ev c kernel listener

/-- The descriptor is that of the server, or of a socket that epoll watches. -/
def Watched (σ : Service) (fd : ℤ) : Prop :=
  fd = σ.server ∨ ∃ c ∈ σ.connections, c.watch ≠ .absent ∧ c.fd = fd

/-- A number for a new socket is not that of an open one. -/
def Fresh (σ : Service) (fd : ℤ) : Prop :=
  0 ≤ fd ∧ fd ≠ σ.server ∧ ∀ c ∈ σ.connections, c.fd ≠ fd

def Admits (σ : Service) (kernel : Kernel) : Prop :=
  match kernel.accept with
  | .ok fd => σ.Fresh fd
  | .error _ => True

instance (σ : Service) (fd : ℤ) : Decidable (σ.Watched fd) :=
  inferInstanceAs (Decidable (_ ∨ _))

instance (σ : Service) (fd : ℤ) : Decidable (σ.Fresh fd) :=
  inferInstanceAs (Decidable (_ ∧ _ ∧ _))

instance (σ : Service) (kernel : Kernel) : Decidable (σ.Admits kernel) := by
  unfold Admits
  split <;> infer_instance

/-- `epoll_wait` returns, or the next event of the batch is handled. -/
inductive Input
  | wait (events : List EpollEvent)
  | handle (kernel : Kernel) (listener : Listener)

/-- A batch has one event for each descriptor it reports. After an exception `run` may be
called again. -/
def step (σ : Service) : Input → Option Service
  | .wait events =>
    if σ.batch = [] ∧ σ.endUsed = false ∧ (∀ ev ∈ events, σ.Watched ev.fd) ∧
        (events.map (·.fd)).Nodup then
      some { σ with batch := events }
    else none
  | .handle kernel listener =>
    match σ.batch with
    | [] => none
    | ev :: rest =>
      if σ.Admits kernel then
        some (({ σ with batch := rest, exception := none }).handle ev kernel listener)
      else none

/-! What a callback does to a connection depends on the operations on that connection
only. -/

end Service

def Client.after (acts : List (ℕ × Act)) (c : Client) : Client :=
  acts.foldl (fun c a => if c.id = a.1 then a.2.apply c else c) c

@[simp] theorem Act.apply_id (c : Client) (a : Act) : (a.apply c).id = c.id := by
  cases a <;> rfl

@[simp] theorem Client.after_cons (a : ℕ × Act) (acts : List (ℕ × Act)) (c : Client) :
    Client.after (a :: acts) c = Client.after acts (if c.id = a.1 then a.2.apply c else c) :=
  rfl

@[simp] theorem Client.after_id (acts : List (ℕ × Act)) (c : Client) :
    (c.after acts).id = c.id := by
  induction acts generalizing c with
  | nil => rfl
  | cons a acts ih =>
    rw [after_cons, ih]
    split_ifs <;> simp

namespace Service

theorem step_handle {σ σ' : Service} {kernel : Kernel} {listener : Listener}
    (h : σ.step (.handle kernel listener) = some σ') :
    ∃ ev rest, σ.batch = ev :: rest ∧ σ.Admits kernel ∧
      ({ σ with batch := rest, exception := none } : Service).handle ev kernel listener = σ' := by
  rw [Service.step] at h
  split at h
  · cases h
  · next ev rest hbatch =>
    obtain ⟨hadm, h⟩ := Option.ite_none_right_eq_some.mp h
    exact ⟨ev, rest, hbatch, hadm, Option.some.inj h⟩

/-- The parts of the service that no operation of a listener changes. -/
structure SameFrame (σ σ' : Service) : Prop where
  server : σ'.server = σ.server
  batch : σ'.batch = σ.batch
  next : σ'.next = σ.next
  exception : σ'.exception = σ.exception
  erased : σ'.erased = σ.erased
  erasedUsed : σ'.erasedUsed = σ.erasedUsed
  endUsed : σ'.endUsed = σ.endUsed

theorem foldl_act (acts : List (ℕ × Act)) (σ : Service) :
    SameFrame σ (acts.foldl act σ) ∧ (acts.foldl act σ).log = σ.log ∧
      (acts.foldl act σ).connections = σ.connections.map (Client.after acts) := by
  induction acts generalizing σ with
  | nil => exact ⟨⟨rfl, rfl, rfl, rfl, rfl, rfl, rfl⟩, rfl, (List.map_id _).symm⟩
  | cons a acts ih =>
    obtain ⟨hf, hlog, hconn⟩ := ih (σ.act a)
    have hact : SameFrame σ (σ.act a) ∧ (σ.act a).log = σ.log ∧ (σ.act a).connections =
        σ.connections.map fun c => if c.id = a.1 then a.2.apply c else c := by
      unfold act
      split_ifs <;> exact ⟨⟨rfl, rfl, rfl, rfl, rfl, rfl, rfl⟩, rfl, rfl⟩
    obtain ⟨hf', hlog', hconn'⟩ := hact
    refine ⟨⟨?_, ?_, ?_, ?_, ?_, ?_, ?_⟩, hlog.trans hlog', ?_⟩
    · exact hf.server.trans hf'.server
    · exact hf.batch.trans hf'.batch
    · exact hf.next.trans hf'.next
    · exact hf.exception.trans hf'.exception
    · exact hf.erased.trans hf'.erased
    · exact hf.erasedUsed.trans hf'.erasedUsed
    · exact hf.endUsed.trans hf'.endUsed
    · rw [List.foldl_cons, hconn, hconn', List.map_map]
      rfl

end Service

/-! What a `read` or `write` that succeeds, and the branches on an event's bits, come to. -/

theorem Client.readToBuffer_ok {c c' : Client} {r : ReadResult} {size : ℕ}
    (h : c.readToBuffer r = .ok (size, c')) :
    ∃ buf, r = .data buf ∧ c.valid = true ∧ size = buf.1.length ∧
      c' = { c with read := c.read ++ buf.1, received := c.received ++ buf.1 } := by
  unfold Client.readToBuffer BufferedConnection.readToBuffer at h
  cases hv : c.valid with
  | false => simp [hv] at h
  | true =>
    cases r with
    | fail errno => simp [hv] at h
    | data buf =>
      simp only [hv, if_true, Except.ok.injEq, Prod.mk.injEq] at h
      obtain ⟨rfl, rfl⟩ := h
      exact ⟨buf, rfl, rfl, rfl, by rw [← hv]⟩

theorem Client.writeFromBuffer_ok {c c' : Client} {r : WriteResult} {size : ℕ}
    (h : c.writeFromBuffer r = .ok (size, c')) :
    ∃ n, r = .wrote n ∧ c.valid = true ∧ size = min n c.write.length ∧
      c' = { c with write := c.write.drop n, sent := c.sent ++ c.write.take n } := by
  unfold Client.writeFromBuffer BufferedConnection.writeFromBuffer at h
  cases hv : c.valid with
  | false => simp [hv] at h
  | true =>
    cases r with
    | fail errno => simp [hv] at h
    | wrote n =>
      simp only [hv, if_true, Except.ok.injEq, Prod.mk.injEq] at h
      obtain ⟨rfl, rfl⟩ := h
      exact ⟨n, rfl, rfl, rfl, by rw [← hv]⟩

/-- What a `read` or a `write` has made of the connection. -/
def Client.Moves (c c' : Client) : Prop :=
  (∃ r size, c.readToBuffer r = .ok (size, c')) ∨ ∃ r size, c.writeFromBuffer r = .ok (size, c')

theorem Service.dispatch_cases {σ σ' : Service} {ev : EpollEvent} {c : Client} {kernel : Kernel}
    {listener : Listener} (h : σ.dispatch ev c kernel listener = .ok σ') :
    (∃ cb, (cb = .onWriteDone → c.write = []) ∧ σ' = σ.call listener cb c.id) ∨
    (∃ c' cb, c.Moves c' ∧ cb ≠ .onWriteDone ∧
      σ' = (σ.modify c.id fun _ => c').call listener cb c.id) ∨
    (∃ c', c.Moves c' ∧ σ' = σ.modify c.id fun _ => c') ∨ σ' = σ := by
  unfold Service.dispatch at h
  split_ifs at h with herr hin hout hbuf
  · exact .inl ⟨.onError, by simp, (Except.ok.inj h).symm⟩
  · split at h
    · cases h
    · next size c' hr =>
      refine .inr (.inl ⟨c', _, .inl ⟨_, _, hr⟩, ?_, (Except.ok.inj h).symm⟩)
      split_ifs <;> simp
  · split at h
    · cases h
    · next size c' hr =>
      have hmoves : c.Moves c' := .inr ⟨_, _, hr⟩
      obtain rfl := Except.ok.inj h
      split_ifs
      · exact .inr (.inl ⟨c', _, hmoves, by simp, rfl⟩)
      · exact .inr (.inr (.inl ⟨c', hmoves, rfl⟩))
  · exact .inl ⟨_, fun _ => not_not.mp hbuf, (Except.ok.inj h).symm⟩
  · exact .inr (.inr (.inr (Except.ok.inj h).symm))

end Sphere.Net
