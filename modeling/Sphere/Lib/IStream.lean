import Mathlib.Data.List.TakeWhile
import Mathlib.Tactic

/-! An input stream of the standard library over bytes: what is left of its content, and the
state bits that its operations set. An operation on a stream that is not good reads nothing
and sets `failbit`. -/

namespace Lib

structure IStream where
  content : List UInt8
  rest : List UInt8
  eofbit : Bool := false
  failbit : Bool := false
  deriving DecidableEq, Repr

namespace IStream

def EOF : ℤ := -1

def opened (content : List UInt8) : IStream := { content, rest := content }

def good (s : IStream) : Bool := !s.eofbit && !s.failbit

def peek (s : IStream) : ℤ × IStream :=
  if s.good then
    match s.rest with
    | [] => (EOF, { s with eofbit := true })
    | b :: _ => (b.toNat, s)
  else (EOF, { s with failbit := true })

def get (s : IStream) : ℤ × IStream :=
  if s.good then
    match s.rest with
    | [] => (EOF, { s with eofbit := true, failbit := true })
    | b :: rest => (b.toNat, { s with rest })
  else (EOF, { s with failbit := true })

/-- `>> std::noskipws >> c`, and whether the stream has not failed. -/
def extract (s : IStream) : Option UInt8 × IStream :=
  if s.good then
    match s.rest with
    | [] => (none, { s with eofbit := true, failbit := true })
    | b :: rest => (some b, { s with rest })
  else (none, { s with failbit := true })

/-- `ignore(1)` -/
def ignore (s : IStream) : IStream :=
  if s.good then
    match s.rest with
    | [] => { s with eofbit := true }
    | _ :: rest => { s with rest }
  else { s with failbit := true }

/-- `std::getline` into a string. The delimiter is taken and not stored; the end of the
stream is no failure unless nothing at all was taken. -/
def getline (s : IStream) (str : List UInt8) (delim : UInt8) : List UInt8 × IStream :=
  if s.good then
    match s.rest.dropWhile (· ≠ delim) with
    | [] => (s.rest, { s with rest := [], eofbit := true, failbit := s.rest.isEmpty })
    | _ :: rest => (s.rest.takeWhile (· ≠ delim), { s with rest })
  else (str, { s with failbit := true })

def clear (s : IStream) : IStream := { s with eofbit := false, failbit := false }

/-- `seekg(0)` -/
def seekg0 (s : IStream) : IStream :=
  if s.failbit then { s with eofbit := false } else { s with eofbit := false, rest := s.content }

theorem clear_seekg0 (s : IStream) : s.clear.seekg0 = opened s.content := rfl

/-! Looking at a good stream. -/

@[simp] theorem peek_nil (content : List UInt8) :
    (⟨content, [], false, false⟩ : IStream).peek = (EOF, ⟨content, [], true, false⟩) := rfl

@[simp] theorem peek_cons (content rest : List UInt8) (b : UInt8) :
    (⟨content, b :: rest, false, false⟩ : IStream).peek =
      ((b.toNat : ℤ), (⟨content, b :: rest, false, false⟩ : IStream)) := rfl

@[simp] theorem peek_eof (content rest : List UInt8) (failbit : Bool) :
    (⟨content, rest, true, failbit⟩ : IStream).peek = (EOF, ⟨content, rest, true, true⟩) := by
  cases failbit <;> rfl

@[simp] theorem get_cons (content rest : List UInt8) (b : UInt8) :
    (⟨content, b :: rest, false, false⟩ : IStream).get =
      ((b.toNat : ℤ), (⟨content, rest, false, false⟩ : IStream)) := rfl

@[simp] theorem ignore_cons (content rest : List UInt8) (b : UInt8) :
    (⟨content, b :: rest, false, false⟩ : IStream).ignore = ⟨content, rest, false, false⟩ := rfl

theorem natCast_ne_EOF (n : ℕ) : (n : ℤ) ≠ EOF := by
  unfold EOF
  omega

/-- Where there is something to look at, taking it leaves less. -/
theorem get_peek_length {s : IStream} (h : s.peek.1 ≠ EOF) :
    s.peek.2.get.2.rest.length < s.rest.length := by
  obtain ⟨content, rest, eofbit, failbit⟩ := s
  cases eofbit with
  | true => simp at h
  | false =>
    cases failbit with
    | true => exact absurd rfl h
    | false =>
      cases rest with
      | nil => simp at h
      | cons b rest => simp

/-! A line of a good stream. -/

theorem getline_last {rest : List UInt8} {delim : UInt8} (h : delim ∉ rest)
    (content str : List UInt8) :
    (⟨content, rest, false, false⟩ : IStream).getline str delim =
      (rest, ⟨content, [], true, rest.isEmpty⟩) := by
  have hall : rest.dropWhile (· ≠ delim) = [] := by
    rw [List.dropWhile_eq_nil_iff]
    intro b hb
    simpa using fun heq : b = delim => h (heq ▸ hb)
  unfold getline
  rw [hall]
  rfl

theorem getline_delim {line : List UInt8} {delim : UInt8} (h : delim ∉ line)
    (content rest str : List UInt8) :
    (⟨content, line ++ delim :: rest, false, false⟩ : IStream).getline str delim =
      (line, ⟨content, rest, false, false⟩) := by
  have hall : ∀ b ∈ line, (fun b => decide (b ≠ delim)) b = true := by
    intro b hb
    simpa using fun heq : b = delim => h (heq ▸ hb)
  have hdrop : (line ++ delim :: rest).dropWhile (fun b => decide (b ≠ delim)) = delim :: rest := by
    rw [List.dropWhile_append_of_pos hall]
    simp
  have htake : (line ++ delim :: rest).takeWhile (fun b => decide (b ≠ delim)) = line := by
    rw [List.takeWhile_append_of_pos hall]
    simp
  unfold getline
  rw [hdrop, htake]
  rfl

@[simp] theorem getline_content (s : IStream) (str : List UInt8) (delim : UInt8) :
    (s.getline str delim).2.content = s.content := by
  unfold getline
  split
  · split <;> rfl
  · rfl

end IStream
end Lib
