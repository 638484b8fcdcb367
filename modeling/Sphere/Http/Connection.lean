import Sphere.Http.Message
import Sphere.Net.Connection

/-! One connection of the HTTP server and what a worker does with it while it holds
its place: `try_read_request`, `try_write_responce` and the branches of `work`, from
`6.http/lib/httpconnection.cpp`, `iTimed.cpp` and `httpworker.cpp`. A script of
answers stands for the kernel; when it has run out the calls would block. -/

namespace Sphere.Http

open Lib Net

instance : Inhabited Request := ⟨⟨[], [], [], [], []⟩⟩

/-- Times are in nanoseconds. `replies` is what the listener has passed to `write`, in
order; the program does not read it. `routine` is the pointer that a `CorConnection`
adds; the connections of the plain service have none. -/
structure HttpConnection extends BufferedConnection where
  req : Request
  keepAlive : Bool
  start : ℤ
  replies : List Responce
  routine : Option ℕ

/-- A connection as `accept` hands it over. -/
def HttpConnection.make (id : ℕ) (now : ℤ) : HttpConnection :=
  { id, valid := true, read := [], write := [], epollOption := UNKNOWN, watch := .absent,
    sent := [], req := default, keepAlive := false, start := now, replies := [],
    routine := none }

/-- The response replaces whatever is still in the buffer. -/
def HttpConnection.putResponce (c : HttpConnection) (res : Responce) : HttpConnection :=
  { c with write := res.str, replies := c.replies ++ [res] }

def HttpConnection.subscribe (c : HttpConnection) (opt : OPTION) : HttpConnection :=
  { c with epollOption := c.epollOption + opt + ET_ONESHOT }

def HttpConnection.unsubscribe (c : HttpConnection) (opt : OPTION) : HttpConnection :=
  { c with epollOption := c.epollOption - opt + ET_ONESHOT }

/-- Closing the descriptor also takes it out of epoll. -/
def HttpConnection.close (c : HttpConnection) : HttpConnection :=
  { c with epollOption := ET_ONESHOT, valid := false, watch := .absent }

/-- The counts of `std::chrono` durations are 64 bits wide and signed. -/
def toInt64 (x : ℤ) : ℤ := x.bmod (2 ^ 64)

/-- Seconds are made of the `size_t`, and both sides are compared in nanoseconds. -/
def HttpConnection.isTimedOut (c : HttpConnection) (now : ℤ) (timeo : ℕ) : Bool :=
  toInt64 (toInt64 timeo * 1000000000) < toInt64 (now - c.start)

def isKeepAlive (headers : List Header) : Bool :=
  match headers.find? fun h => h.name = lit "Connection" with
  | some it => (Search.find (lit "Keep-Alive") it.value).isSome
  | none => false

/-- An epoll event carries the place. `conn` is the connection it was raised for,
which the program does not get to see. -/
structure Event where
  place : ℕ
  conn : ℕ
  isIn : Bool
  isOut : Bool
  deriving DecidableEq, Repr

/-- Where control goes when a client has been closed. -/
inductive After
  | finish
  | leave
  deriving DecidableEq, Repr

/-- How serving an event goes on: by an exception that is not caught, by closing the
client, by waiting for the rest of a request, at the end of `work`. -/
inductive Next
  | thrown (e : TcpError)
  | undefined
  | close (k : After)
  | rearm
  | finish
  deriving DecidableEq, Repr

/-- The handlers around `read_to_buffer`; `none` is the `break`. -/
def readFailed : TcpError → Option Next
  | .timeOut _ => none
  | .descriptor _ => some (.close .leave)
  | e => some (.thrown e)

/-- The reading loop of `try_read_request`; `none` when it ends in `break`. -/
def readLoop (c : HttpConnection) : List ReadResult → HttpConnection × Option Next
  | [] => (c, readFailed (handleError (if c.valid then EAGAIN else EBADF)))
  | r :: reads =>
    match c.readToBuffer r with
    | .ok (0, _) => (c, some (.close .leave))
    | .ok (_ + 1, b) => readLoop { c with toBufferedConnection := b } reads
    | .error e => (c, readFailed e)

/-- The second half of `try_read_request`; `none` when it returns true. -/
def parseRequest (c : HttpConnection) : HttpConnection × Option Next :=
  match Request.parse c.read with
  | .ok req => ({ c with keepAlive := isKeepAlive req.headers, req }, none)
  | .error (.expectingData _) => (c, some .rearm)
  | .error (.incorrectData _) => (c, some (.close .leave))
  | .error _ => (c, some .undefined)

def tryReadRequest (c : HttpConnection) (reads : List ReadResult) :
    HttpConnection × Option Next :=
  match readLoop c reads with
  | (c, some next) => (c, some next)
  | (c, none) => parseRequest c

/-- The handlers around `write_from_buffer`: how control goes on, or the value that
`try_write_responce` returns. -/
def writeFailed : TcpError → Next ⊕ Bool
  | .timeOut _ => .inr false
  | .descriptor _ => .inl (.close .finish)
  | e => .inl (.thrown e)

def tryWriteResponce (c : HttpConnection) : List WriteResult → HttpConnection × (Next ⊕ Bool)
  | [] => (c, writeFailed (handleError (if c.valid then EAGAIN else EBADF)))
  | r :: writes =>
    match c.writeFromBuffer r with
    | .ok (_, b) =>
      if b.write = [] then ({ c with toBufferedConnection := b }, .inr true)
      else tryWriteResponce { c with toBufferedConnection := b } writes
    | .error e => (c, writeFailed e)

/-- What `work` does once `try_read_request` has returned true. The listener writes
the given responses. -/
def onRequest (c : HttpConnection) (replies : List Responce) : HttpConnection :=
  let c := replies.foldl HttpConnection.putResponce c
  let c := if c.keepAlive then { c with read := [] } else c.unsubscribe READ
  c.subscribe WRITE

/-- The answers a worker gets while it serves one event. -/
structure Script where
  reads : List ReadResult
  writes : List WriteResult
  replies : List Responce

/-- The branches of `work`; `EPOLLIN` goes before `EPOLLOUT`. -/
def serve (c : HttpConnection) (e : Event) (x : Script) : HttpConnection × Next :=
  if e.isIn then
    match tryReadRequest c x.reads with
    | (c, some next) => (c, next)
    | (c, none) => (onRequest c x.replies, .finish)
  else if e.isOut then
    match tryWriteResponce c x.writes with
    | (c, .inl next) => (c, next)
    | (c, .inr true) => (c.unsubscribe WRITE, .finish)
    | (c, .inr false) => (c, .finish)
  else (c, .finish)

/-! Serving an event works on the buffers and options of one connection; it neither
closes the socket nor touches epoll or the routine. -/

structure SameSocket (c c' : HttpConnection) : Prop where
  id : c'.id = c.id
  valid : c'.valid = c.valid
  watch : c'.watch = c.watch
  routine : c'.routine = c.routine

theorem SameSocket.refl (c : HttpConnection) : SameSocket c c := ⟨rfl, rfl, rfl, rfl⟩

theorem SameSocket.trans {c d e : HttpConnection} (h : SameSocket c d) (h' : SameSocket d e) :
    SameSocket c e :=
  ⟨h'.id.trans h.id, h'.valid.trans h.valid, h'.watch.trans h.watch, h'.routine.trans h.routine⟩

theorem readToBuffer_same {c : HttpConnection} {b : BufferedConnection} {r : ReadResult} {n : ℕ}
    (h : c.readToBuffer r = .ok (n, b)) : SameSocket c { c with toBufferedConnection := b } := by
  unfold BufferedConnection.readToBuffer at h
  split at h
  · cases h; exact ⟨rfl, rfl, rfl, rfl⟩
  · cases h

theorem writeFromBuffer_same {c : HttpConnection} {b : BufferedConnection} {r : WriteResult}
    {n : ℕ} (h : c.writeFromBuffer r = .ok (n, b)) :
    SameSocket c { c with toBufferedConnection := b } := by
  unfold BufferedConnection.writeFromBuffer at h
  split at h
  · cases h; exact ⟨rfl, rfl, rfl, rfl⟩
  · cases h

theorem readLoop_same (reads : List ReadResult) (c : HttpConnection) :
    SameSocket c (readLoop c reads).1 := by
  induction reads generalizing c with
  | nil => exact .refl _
  | cons r reads ih =>
    unfold readLoop
    split
    · exact .refl _
    · rename_i b hb
      exact (readToBuffer_same hb).trans (ih { c with toBufferedConnection := b })
    · exact .refl _

theorem parseRequest_same (c : HttpConnection) : SameSocket c (parseRequest c).1 := by
  unfold parseRequest
  split <;> exact ⟨rfl, rfl, rfl, rfl⟩

theorem tryReadRequest_same (c : HttpConnection) (reads : List ReadResult) :
    SameSocket c (tryReadRequest c reads).1 := by
  have hread := readLoop_same reads c
  unfold tryReadRequest
  split
  · rename_i c' next h
    rwa [h] at hread
  · rename_i c' h
    rw [h] at hread
    exact hread.trans (parseRequest_same c')

theorem tryWriteResponce_same (writes : List WriteResult) (c : HttpConnection) :
    SameSocket c (tryWriteResponce c writes).1 := by
  induction writes generalizing c with
  | nil => exact .refl _
  | cons r writes ih =>
    unfold tryWriteResponce
    split
    · rename_i b hb
      split
      · exact writeFromBuffer_same hb
      · exact (writeFromBuffer_same hb).trans (ih { c with toBufferedConnection := b })
    · exact .refl _

theorem onRequest_same (replies : List Responce) (c : HttpConnection) :
    SameSocket c (onRequest c replies) := by
  have hput : ∀ c : HttpConnection, SameSocket c (replies.foldl HttpConnection.putResponce c) := by
    induction replies with
    | nil => exact fun c => .refl _
    | cons r replies ih =>
      intro c
      have hr : SameSocket c (c.putResponce r) := ⟨rfl, rfl, rfl, rfl⟩
      exact hr.trans (ih (c.putResponce r))
  refine (hput c).trans ?_
  unfold onRequest
  dsimp only
  split <;> exact ⟨rfl, rfl, rfl, rfl⟩

theorem serve_same (c : HttpConnection) (e : Event) (x : Script) :
    SameSocket c (serve c e x).1 := by
  have hread := tryReadRequest_same c x.reads
  have hwrite := tryWriteResponce_same x.writes c
  unfold serve
  split_ifs
  · split
    · rename_i h
      rwa [h] at hread
    · rename_i c' h
      rw [h] at hread
      exact hread.trans (onRequest_same x.replies c')
  · split <;> rename_i h <;> rw [h] at hwrite
    · exact hwrite
    · exact hwrite.trans ⟨rfl, rfl, rfl, rfl⟩
    · exact hwrite
  · exact .refl _

end Sphere.Http
