import Sphere.Lib.Exact
import Sphere.Proc.Process
import Sphere.Net.Connection

/-! `writeExact` and `readExact` of `prc::Process` and `tcp::Connection`, over whatever the
system calls answer. The two classes have the same loops; they differ in how a result is
told from an error. -/

namespace Sphere

open Lib.Exact

/-- What a `::read` or a `::write` does: how many bytes it moves, or none when it fails, and
the `errno` that stands behind it. -/
structure Answer where
  count : Option ℕ
  errno : ℕ
  deriving DecidableEq, Repr

namespace Answer

/-- The `ssize_t` that the call returns. -/
def size (a : Answer) : ℤ := a.count.elim (-1) Nat.cast

/-- `static_cast<size_t> (size)` of a result that is no error. -/
def moved (a : Answer) : ℕ := a.size.toNat

theorem size_of_pos {a : Answer} (h : 0 < a.moved) : a.size = a.moved := by
  rw [moved] at h ⊢
  omega

end Answer

/-- The text of an exception: `std::strerror(errno)` or a literal. -/
inductive What
  | strerror (errno : ℕ)
  | text (s : String)
  deriving DecidableEq, Repr

namespace Proc

structure DescriptorError where
  what : What
  fd : ℤ
  deriving DecidableEq, Repr

/-- `size == -1` throws. -/
def transfer (fd : ℤ) : Calls Answer DescriptorError where
  moved := Answer.moved
  fails a := if a.size = -1 then some ⟨.strerror a.errno, fd⟩ else none

namespace Process

variable (o : Process)

def write : Calls Answer DescriptorError := transfer o.writeToChild.fd

def writeExact (data channel : List UInt8) (answers : List Answer) :
    Sent UInt8 Answer DescriptorError :=
  o.write.sendExact data channel answers

def read : Calls Answer DescriptorError := transfer o.readFromChild.fd

def readExact (buffer stream : List UInt8) (answers : List Answer) :
    Received UInt8 Answer DescriptorError :=
  o.read.receiveExact ⟨.text "Desctiptor closed", o.readFromChild.fd⟩ buffer stream answers

end Process

theorem transfer_fails (fd : ℤ) {a : Answer} (h : 0 < a.moved) : (transfer fd).fails a = none := by
  have hsize := Answer.size_of_pos h
  exact if_neg (by omega)

end Proc

namespace Tcp

inductive Exception
  | timeOutError (what : What)
  | descriptorError (what : What)
  | error (what : What)
  deriving DecidableEq, Repr

/-- What is left of a `ssize_t` in an `int`. -/
def toInt (x : ℤ) : ℤ := x.bmod (2 ^ 32)

/-- `handle_error` of `connection.cpp`. -/
def handleError (errnum : ℤ) (errno : ℕ) : Option Exception :=
  if errnum = -1 then
    if errno = Net.EAGAIN ∨ errno = Net.EWOULDBLOCK ∨ errno = Net.EINPROGRESS then
      some (.timeOutError (.strerror errno))
    else if errno = Net.EBADF then some (.descriptorError (.strerror errno))
    else some (.error (.strerror errno))
  else none

theorem handleError_eq_none {errnum : ℤ} {errno : ℕ} :
    handleError errnum errno = none ↔ errnum ≠ -1 := by
  unfold handleError
  split_ifs with h <;> simp [h]

/-- The result goes into a `ssize_t` and from there into the `int` of `handle_error`. -/
def transfer : Calls Answer Exception where
  moved := Answer.moved
  fails a := handleError (toInt a.size) a.errno

theorem toInt_eq (n : ℕ) : toInt n = -1 ↔ n % 2 ^ 32 = 2 ^ 32 - 1 := by
  rw [toInt, Int.bmod_def]
  split_ifs with h
  · omega
  · omega

theorem transfer_fails {a : Answer} (h : 0 < a.moved) :
    transfer.fails a = none ↔ a.moved % 2 ^ 32 ≠ 2 ^ 32 - 1 := by
  have hfails : transfer.fails a = handleError (toInt a.size) a.errno := rfl
  rw [hfails, handleError_eq_none, Answer.size_of_pos h, Ne, toInt_eq]

namespace Connection

def write : Calls Answer Exception := transfer

def writeExact (data channel : List UInt8) (answers : List Answer) :
    Sent UInt8 Answer Exception :=
  write.sendExact data channel answers

def read : Calls Answer Exception := transfer

def readExact (buffer stream : List UInt8) (answers : List Answer) :
    Received UInt8 Answer Exception :=
  read.receiveExact (.descriptorError (.text "readExact failure")) buffer stream answers

end Connection
end Tcp

/-! What both are for. -/

variable {ε : Type}

/-- With these results a writer returns behind them, with exactly its data in the channel. -/
def WritesExactly (writeExact : List UInt8 → List UInt8 → List Answer → Sent UInt8 Answer ε)
    (data : List UInt8) (ws : List Answer) : Prop :=
  ∀ channel answers, writeExact data channel (ws ++ answers) =
    ⟨.returned, channel ++ data, answers⟩

/-- With these results a reader fills its buffer with the next bytes and leaves those behind
them, or throws at the end of the stream with what came before it at the front. -/
def ReadsExactly (readExact : List UInt8 → List UInt8 → List Answer → Received UInt8 Answer ε)
    (ended : ε) (buffer stream : List UInt8) (rs : List Answer) : Prop :=
  (buffer.length ≤ stream.length → ∀ answers, readExact buffer stream (rs ++ answers) =
    ⟨.returned, stream.take buffer.length, stream.drop buffer.length, answers⟩) ∧
  (stream.length < buffer.length → ∀ errno answers,
    readExact buffer stream (rs ++ ⟨some 0, errno⟩ :: answers) =
      ⟨.threw ended, stream ++ buffer.drop stream.length, [], answers⟩)

theorem writesExactly_iff {k : Calls Answer ε} {data : List UInt8} {ws : List Answer}
    (h : Chunks k.moved data.length ws) :
    WritesExactly k.sendExact data ws ↔ ∀ a ∈ ws, k.fails a = none := by
  refine ⟨fun hsent => ?_, fun hok channel answers => ?_⟩
  · exact (Calls.sendExact_iff h [] []).mp (hsent [] [])
  · exact (Calls.sendExact_iff h channel answers).mpr hok

theorem readsExactly_iff {k : Calls Answer ε} (hmoved : k.moved = Answer.moved)
    (hend : ∀ errno, k.fails ⟨some 0, errno⟩ = none) (ended : ε) {buffer stream : List UInt8}
    {rs : List Answer} (h : Chunks k.moved (min buffer.length stream.length) rs) :
    ReadsExactly (k.receiveExact ended) ended buffer stream rs ↔ ∀ a ∈ rs, k.fails a = none := by
  have hzero : ∀ errno, k.moved ⟨some 0, errno⟩ = 0 := by
    intro errno
    rw [hmoved]
    rfl
  rcases Nat.lt_or_ge stream.length buffer.length with hlen | hlen
  · rw [min_eq_right hlen.le] at h
    refine ⟨fun hread => ?_, fun hok => ⟨fun hle => absurd hle hlen.not_ge, ?_⟩⟩
    · exact (Calls.receiveExact_ended_iff ended hlen h (hzero 0) (hend 0) []).mp (hread.2 hlen 0 [])
    · intro _ errno answers
      exact (Calls.receiveExact_ended_iff ended hlen h (hzero errno) (hend errno) answers).mpr hok
  · rw [min_eq_left hlen] at h
    refine ⟨fun hread => ?_, fun hok => ⟨?_, fun hlt => absurd hlt hlen.not_gt⟩⟩
    · exact (Calls.receiveExact_iff ended hlen h []).mp (hread.1 hlen [])
    · intro _ answers
      exact (Calls.receiveExact_iff ended hlen h answers).mpr hok

/-- What was written exactly is read exactly, however differently the two sides are cut. -/
theorem exact_pair {k k' : Calls Answer ε} {data buffer : List UInt8}
    (hlen : buffer.length = data.length) {ws rs : List Answer}
    (hws : Chunks k.moved data.length ws) (hsend : ∀ a ∈ ws, k.fails a = none)
    (hrs : Chunks k'.moved data.length rs) (hreceive : ∀ a ∈ rs, k'.fails a = none)
    (ended : ε) (behind : List UInt8) :
    k'.receiveExact ended buffer ((k.sendExact data [] ws).channel ++ behind) rs =
      ⟨.returned, data, behind, []⟩ := by
  have hsent := (Calls.sendExact_iff hws [] []).mpr hsend
  rw [List.append_nil, List.nil_append] at hsent
  rw [hsent]
  have hle : buffer.length ≤ (data ++ behind).length := by
    rw [List.length_append]
    omega
  rw [← hlen] at hrs
  have hreceived := (Calls.receiveExact_iff ended hle hrs []).mpr hreceive
  rw [List.append_nil, hlen, List.take_left, List.drop_left] at hreceived
  exact hreceived

theorem exact_transfer_iff (o : Proc.Process) (data : List UInt8) {ws : List Answer}
    (hws : Chunks Answer.moved data.length ws) (buffer stream : List UInt8) {rs : List Answer}
    (hrs : Chunks Answer.moved (min buffer.length stream.length) rs) :
    (WritesExactly o.writeExact data ws ∧
      ReadsExactly o.readExact ⟨.text "Desctiptor closed", o.readFromChild.fd⟩ buffer stream rs) ∧
    (WritesExactly Tcp.Connection.writeExact data ws ↔
      ∀ a ∈ ws, a.moved % 2 ^ 32 ≠ 2 ^ 32 - 1) ∧
    (ReadsExactly Tcp.Connection.readExact (.descriptorError (.text "readExact failure"))
        buffer stream rs ↔
      ∀ a ∈ rs, a.moved % 2 ^ 32 ≠ 2 ^ 32 - 1) := by
  refine ⟨⟨?_, ?_⟩, ?_, ?_⟩
  · exact (writesExactly_iff hws).mpr fun a ha => Proc.transfer_fails _ (hws.pos a ha)
  · exact (readsExactly_iff rfl (fun _ => rfl) _ hrs).mpr
      fun a ha => Proc.transfer_fails _ (hrs.pos a ha)
  · refine (writesExactly_iff hws).trans (forall₂_congr fun a ha => ?_)
    exact Tcp.transfer_fails (hws.pos a ha)
  · refine (readsExactly_iff rfl (fun _ => rfl) _ hrs).trans (forall₂_congr fun a ha => ?_)
    exact Tcp.transfer_fails (hrs.pos a ha)

/-- Three bytes in two writes, and a stream that ends after one byte of two. -/
theorem exact_transfer_chunks :
    WritesExactly Tcp.Connection.writeExact [1, 2, 3] [⟨some 1, 0⟩, ⟨some 2, 0⟩] ∧
    ReadsExactly Tcp.Connection.readExact (.descriptorError (.text "readExact failure"))
      [0, 0] [7] [⟨some 1, 0⟩] := by
  have hws : Chunks Answer.moved 3 [⟨some 1, 0⟩, ⟨some 2, 0⟩] := ⟨by decide, rfl⟩
  have hrs : Chunks Answer.moved 1 [⟨some 1, 0⟩] := ⟨by decide, rfl⟩
  have h := exact_transfer_iff {} [1, 2, 3] hws [0, 0] [7] hrs
  exact ⟨h.2.1.mpr (by decide), h.2.2.mpr (by decide)⟩

/-- The whole data is written at once, and the writer throws. -/
theorem exact_transfer_narrowed :
    let data := List.replicate (2 ^ 32 - 1) (0 : UInt8)
    Chunks Answer.moved data.length [⟨some (2 ^ 32 - 1), 0⟩] ∧
    ¬ WritesExactly Tcp.Connection.writeExact data [⟨some (2 ^ 32 - 1), 0⟩] ∧
    (Tcp.Connection.writeExact data [] [⟨some (2 ^ 32 - 1), 0⟩]).outcome =
      .threw (.error (.strerror 0)) := by
  intro data
  have hlen : data.length = 2 ^ 32 - 1 := List.length_replicate
  have hws : Chunks Answer.moved data.length [⟨some (2 ^ 32 - 1), 0⟩] :=
    ⟨by decide, by rw [hlen]; rfl⟩
  have hfails : Tcp.transfer.fails ⟨some (2 ^ 32 - 1), 0⟩ = some (.error (.strerror 0)) := by
    decide
  refine ⟨hws, fun hsent => ?_, ?_⟩
  · have hnone := (writesExactly_iff hws).mp hsent _ (List.mem_singleton.mpr rfl)
    rw [Tcp.Connection.write, hfails] at hnone
    cases hnone
  · have hpos : 0 < data.length := by omega
    rw [Tcp.Connection.writeExact, Calls.sendExact, Calls.sendLoop, if_pos hpos]
    simp only [Tcp.Connection.write, hfails]

end Sphere
