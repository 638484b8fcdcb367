import Mathlib.Tactic

/-! The connection layer under the HTTP services: the classification of `errno` in
`3.tcp/lib/nonblock_connection.cpp`, the epoll options of `5.net/lib/option.cpp` and
the buffers of `5.net/lib/bufconnection.cpp`. What the kernel answers to a `read` or
a `write` is an input. -/

namespace Sphere.Net

/-! Values of `errno`. -/

def EBADF : ℕ := 9
def EAGAIN : ℕ := 11
def EWOULDBLOCK : ℕ := EAGAIN
def ECONNRESET : ℕ := 104
def EINPROGRESS : ℕ := 115

/-- The exceptions of `tcp` that `read` and `write` throw. -/
inductive TcpError
  | timeOut (errno : ℕ)
  | descriptor (errno : ℕ)
  | error (errno : ℕ)
  deriving DecidableEq, Repr

def handleError (errno : ℕ) : TcpError :=
  if errno = EAGAIN ∨ errno = EWOULDBLOCK ∨ errno = EINPROGRESS then .timeOut errno
  else if errno = EBADF then .descriptor errno
  else .error errno

/-- A set of epoll flags; `+` and `-` are the overloaded operators. -/
structure OPTION where
  bits : BitVec 32
  deriving DecidableEq, Repr

instance : Add OPTION := ⟨fun lhs rhs => ⟨lhs.bits ||| rhs.bits⟩⟩
instance : Sub OPTION := ⟨fun lhs rhs => ⟨lhs.bits &&& ~~~rhs.bits⟩⟩

def UNKNOWN : OPTION := ⟨0⟩
def READ : OPTION := ⟨0x1⟩
def WRITE : OPTION := ⟨0x4⟩

/-- `EPOLLET | EPOLLONESHOT`. -/
def ET_ONESHOT : OPTION := ⟨0xC0000000⟩

def OPTION.has (opt flag : OPTION) : Bool := opt.bits &&& flag.bits ≠ 0

/-- What epoll does with a socket: it does not know it, it has reported it once and
waits to be told again, or it is about to report it under the given options. -/
inductive Watch
  | absent
  | disabled
  | armed (opt : OPTION)
  deriving DecidableEq, Repr

def BUF_SIZE : ℕ := 128

/-- What one `::read` takes of the bytes that have come. -/
def oneRead (bytes : List UInt8) : {b : List UInt8 // b.length ≤ BUF_SIZE} :=
  ⟨bytes.take BUF_SIZE, List.length_take_le BUF_SIZE bytes⟩

/-- What `::read` answers: at most a buffer of bytes, none at the end of the stream. -/
inductive ReadResult
  | data (bytes : {b : List UInt8 // b.length ≤ BUF_SIZE})
  | fail (errno : ℕ)

/-- What `::write` answers: how many bytes it took, at most as many as it was given. -/
inductive WriteResult
  | wrote (size : ℕ)
  | fail (errno : ℕ)
  deriving DecidableEq, Repr

/-- `id` tells accepted sockets apart and `sent` is all that the socket has taken so
far; the program reads neither. -/
structure BufferedConnection where
  id : ℕ
  valid : Bool
  read : List UInt8
  write : List UInt8
  epollOption : OPTION
  watch : Watch
  sent : List UInt8

/-- Reading an invalid descriptor fails whatever the kernel would have had. -/
def BufferedConnection.readToBuffer (c : BufferedConnection) (r : ReadResult) :
    Except TcpError (ℕ × BufferedConnection) :=
  match if c.valid then r else .fail EBADF with
  | .data buf => .ok (buf.1.length, { c with read := c.read ++ buf.1 })
  | .fail errno => .error (handleError errno)

def BufferedConnection.writeFromBuffer (c : BufferedConnection) (r : WriteResult) :
    Except TcpError (ℕ × BufferedConnection) :=
  match if c.valid then r else .fail EBADF with
  | .wrote size =>
    .ok (min size c.write.length,
      { c with write := c.write.drop size, sent := c.sent ++ c.write.take size })
  | .fail errno => .error (handleError errno)

end Sphere.Net
