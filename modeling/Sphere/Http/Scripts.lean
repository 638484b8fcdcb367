import Sphere.Http.Connection

/-! What the loops of a worker come to. A batch of reads is the bytes before its first
answer that is not data, and that answer; a batch of writes leaves some of the buffer,
unless it has been written to the end. -/

namespace Sphere.Http

open Lib Net

/-- What ends a batch of reads: the end of the stream or a failure. -/
inductive Ending
  | eof
  | fail (errno : ℕ)
  deriving DecidableEq, Repr

def received : List ReadResult → Bytes
  | .data b :: reads => if b.1 = [] then [] else b.1 ++ received reads
  | _ => []

def ending : List ReadResult → Ending
  | [] => .fail EAGAIN
  | .data b :: reads => if b.1 = [] then .eof else ending reads
  | .fail errno :: _ => .fail errno

/-- How `try_read_request` takes it; `none` is the `break`. -/
def Ending.next : Ending → Option Next
  | .eof => some (.close .leave)
  | .fail errno => readFailed (handleError errno)

def HttpConnection.receive (c : HttpConnection) (bytes : Bytes) : HttpConnection :=
  { c with read := c.read ++ bytes }

@[simp] theorem receive_nil (c : HttpConnection) : c.receive [] = c := by
  simp [HttpConnection.receive]

theorem receive_receive (c : HttpConnection) (a b : Bytes) :
    (c.receive a).receive b = c.receive (a ++ b) := by
  simp [HttpConnection.receive]

theorem readToBuffer_data {c : HttpConnection} (hv : c.valid = true)
    (b : {b : Bytes // b.length ≤ BUF_SIZE}) :
    c.readToBuffer (.data b) = .ok (b.1.length, (c.receive b.1).toBufferedConnection) := by
  simp [BufferedConnection.readToBuffer, hv, HttpConnection.receive]

theorem readLoop_eq (reads : List ReadResult) {c : HttpConnection} (hv : c.valid = true) :
    readLoop c reads = (c.receive (received reads), (ending reads).next) := by
  induction reads generalizing c with
  | nil =>
    rw [readLoop, hv]
    simp [received, ending, Ending.next]
  | cons r reads ih =>
    cases r with
    | fail errno =>
      rw [readLoop, BufferedConnection.readToBuffer, hv]
      simp [received, ending, Ending.next]
    | data b =>
      rw [readLoop, readToBuffer_data hv, received, ending]
      by_cases hb : b.1 = []
      · simp [hb, Ending.next]
      · obtain ⟨n, hn⟩ := Nat.exists_eq_succ_of_ne_zero (mt List.length_eq_zero_iff.mp hb)
        simp only [hn, hb, if_false]
        rw [← receive_receive]
        exact ih (c := c.receive b.1) hv

theorem tryReadRequest_eq (reads : List ReadResult) {c : HttpConnection} (hv : c.valid = true) :
    tryReadRequest c reads =
      match (ending reads).next with
      | some next => (c.receive (received reads), some next)
      | none => parseRequest (c.receive (received reads)) := by
  unfold tryReadRequest
  rw [readLoop_eq reads hv]
  cases (ending reads).next <;> rfl

theorem readFailed_none {errno : ℕ} :
    readFailed (handleError errno) = none ↔ handleError errno = .timeOut errno := by
  unfold handleError
  split
  · simp [readFailed]
  · split <;> simp [readFailed]

/-- The socket takes `n` bytes. -/
def taken (c : HttpConnection) (n : ℕ) : HttpConnection :=
  { c with write := c.write.drop n, sent := c.sent ++ c.write.take n }

theorem tryWrite_wrote {c : HttpConnection} (hv : c.valid = true) (n : ℕ)
    (writes : List WriteResult) :
    tryWriteResponce c (.wrote n :: writes) =
      if (taken c n).write = [] then (taken c n, .inr true)
      else tryWriteResponce (taken c n) writes := by
  rw [tryWriteResponce, BufferedConnection.writeFromBuffer, if_pos hv]
  rfl

theorem tryWrite_fail {c : HttpConnection} (hv : c.valid = true) (errno : ℕ)
    (writes : List WriteResult) :
    tryWriteResponce c (.fail errno :: writes) = (c, writeFailed (handleError errno)) := by
  rw [tryWriteResponce, BufferedConnection.writeFromBuffer, if_pos hv]

theorem tryWrite_nil {c : HttpConnection} (hv : c.valid = true) :
    tryWriteResponce c [] = (c, .inr false) := by
  rw [tryWriteResponce, if_pos hv]
  rfl

theorem writeFailed_cases (errno : ℕ) :
    writeFailed (handleError errno) = .inr false ∨
      (∃ err, writeFailed (handleError errno) = .inl (.thrown err)) ∨
      writeFailed (handleError errno) = .inl (.close .finish) := by
  unfold handleError
  split
  · exact .inl rfl
  · split
    · exact .inr (.inr rfl)
    · exact .inr (.inl ⟨_, rfl⟩)

/-- The request is there: the batch ends because the socket has no more for now, and the
buffer parses. -/
def Completes (c : HttpConnection) (reads : List ReadResult) : Prop :=
  (∃ errno, ending reads = .fail errno ∧ handleError errno = .timeOut errno) ∧
    ∃ req, Request.parse (c.read ++ received reads) = .ok req

theorem completes_of_tryRead {c : HttpConnection} {reads : List ReadResult} (hv : c.valid = true)
    (h : (tryReadRequest c reads).2 = none) : Completes c reads := by
  rw [tryReadRequest_eq reads hv] at h
  split at h
  · cases h
  · rename_i hnext
    refine ⟨?_, ?_⟩
    · cases hend : ending reads with
      | eof =>
        rw [hend] at hnext
        cases hnext
      | fail errno =>
        rw [hend] at hnext
        exact ⟨errno, rfl, readFailed_none.mp hnext⟩
    · unfold parseRequest at h
      split at h
      · rename_i req hreq
        exact ⟨req, hreq⟩
      · cases h
      · cases h
      · cases h

end Sphere.Http
