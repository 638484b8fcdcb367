import Mathlib.Data.List.Basic

/-! An output stream with a buffer in front of a device that may fail. What it was told to
write is on the device or in the buffer. A stream that has failed takes nothing more, but what it
has in the buffer it may write again; behind the beginning that the device had taken there may
then be pieces of the rest. -/

namespace Lib

structure OutStream (α : Type*) where
  device : List α
  buffer : List α
  good : Bool

namespace OutStream

variable {α : Type*}

/-- Just opened, on a device that has something already. -/
def onto (device : List α) : OutStream α := ⟨device, [], true⟩

def put (s : OutStream α) (a : α) : OutStream α :=
  if s.good then { s with buffer := s.buffer ++ [a] } else s

/-- A part of the buffer goes to the device. -/
def spill (s : OutStream α) (k : ℕ) : OutStream α :=
  if s.good then ⟨s.device ++ s.buffer.take k, s.buffer.drop k, true⟩ else s

/-- The device takes a part of the buffer and fails, or it has failed already and is given the
buffer again. What stays in the buffer depends on the library: all of it, nothing, or what was
not taken. -/
def fail (s : OutStream α) (k i n : ℕ) : OutStream α :=
  ⟨s.device ++ s.buffer.take k, (s.buffer.drop i).take n, false⟩

/-- The buffer of `old`, which may have been opened on this device earlier, goes to the device. -/
def drain (s old : OutStream α) : OutStream α :=
  if old.good then ⟨s.device ++ old.buffer, [], s.good⟩ else s

def flush (s : OutStream α) : OutStream α := s.drain s

/-- A beginning of the text was on the device when it failed, and pieces of the rest have come
behind it. -/
def Cut (s : OutStream α) (text : List α) : Prop :=
  ∃ start rest, text = start ++ rest ∧ s.buffer <:+: rest ∧
    ∃ pieces : List (List α), s.device = start ++ pieces.flatten ∧ ∀ x ∈ pieces, x <:+: rest

/-- The stream was told to write the text, on top of what the device had. -/
structure Carries (s : OutStream α) (text : List α) : Prop where
  whole : s.good → s.device ++ s.buffer = text
  cut : s.good = false → s.Cut text

variable {s : OutStream α} {text : List α}

theorem Carries.onto (device : List α) : (onto device).Carries device :=
  ⟨fun _ => List.append_nil device, fun h => by cases h⟩

theorem Cut.append (h : s.Cut text) (more : List α) : s.Cut (text ++ more) := by
  obtain ⟨start, rest, rfl, hbuffer, pieces, hdevice, hpieces⟩ := h
  have hlonger : rest <:+: rest ++ more := (List.prefix_append rest more).isInfix
  exact ⟨start, rest ++ more, List.append_assoc .., hbuffer.trans hlonger, pieces, hdevice,
    fun x hx => (hpieces x hx).trans hlonger⟩

theorem Carries.put (h : s.Carries text) (a : α) : (s.put a).Carries (text ++ [a]) := by
  unfold OutStream.put
  split_ifs with hs
  · exact ⟨fun _ => by rw [← h.whole hs, List.append_assoc],
      fun hf => (Bool.false_ne_true (hf.symm.trans hs)).elim⟩
  · exact ⟨fun ht => absurd ht hs, fun hf => (h.cut hf).append [a]⟩

theorem Carries.spill (h : s.Carries text) (k : ℕ) : (s.spill k).Carries text := by
  unfold OutStream.spill
  split_ifs with hs
  · refine ⟨fun _ => ?_, fun hf => by cases hf⟩
    rw [List.append_assoc, List.take_append_drop]
    exact h.whole hs
  · exact h

/-- What is left in the buffer is a piece of it. -/
theorem left_piece (buffer : List α) (i n : ℕ) : (buffer.drop i).take n <:+: buffer :=
  (List.take_prefix n _).isInfix.trans (List.drop_suffix i buffer).isInfix

theorem Carries.fail (h : s.Carries text) (k i n : ℕ) : (s.fail k i n).Carries text := by
  refine ⟨fun hf => (by cases hf), fun _ => ?_⟩
  have htaken : s.buffer.take k <:+: s.buffer := (List.take_prefix k _).isInfix
  cases hs : s.good with
  | true =>
    refine ⟨s.device, s.buffer, (h.whole hs).symm, left_piece .., [s.buffer.take k], ?_, ?_⟩
    · rw [List.flatten_singleton]
      rfl
    · intro x hx
      rwa [List.mem_singleton.mp hx]
  | false =>
    obtain ⟨start, rest, htext, hbuffer, pieces, hdevice, hpieces⟩ := h.cut hs
    refine ⟨start, rest, htext, (left_piece ..).trans hbuffer, pieces ++ [s.buffer.take k], ?_, ?_⟩
    · rw [List.flatten_append, List.flatten_singleton, ← List.append_assoc, ← hdevice]
      rfl
    · intro x hx
      rcases List.mem_append.mp hx with hx | hx
      · exact hpieces x hx
      · rw [List.mem_singleton.mp hx]
        exact htaken.trans hbuffer

theorem Carries.flush (h : s.Carries text) : s.flush.Carries text := by
  unfold OutStream.flush OutStream.drain
  split_ifs with hs
  · exact ⟨fun _ => by rw [List.append_nil, h.whole hs],
      fun hf => (Bool.false_ne_true (hf.symm.trans hs)).elim⟩
  · exact h

theorem spill_good (k : ℕ) : (s.spill k).good = s.good := by
  unfold spill
  split_ifs with hs
  · exact hs.symm
  · rfl

theorem spill_buffer (k : ℕ) (h : s.buffer = []) : (s.spill k).buffer = [] := by
  unfold spill
  split_ifs <;> simp [h]

theorem flush_buffer (h : s.flush.good) : s.flush.buffer = [] := by
  unfold flush drain at h ⊢
  split_ifs at h ⊢ with hs
  · rfl
  · exact absurd h hs

theorem drain_of_empty {old : OutStream α} (hold : old.good → old.buffer = [])
    (hs : old.good → s.buffer = []) : s.drain old = s := by
  unfold drain
  split_ifs with hgood
  · rw [hold hgood, List.append_nil, ← hs hgood]
  · rfl

/-- Nothing is behind the buffer of a stream that works. -/
theorem Carries.device (h : s.Carries text) (hgood : s.good) (hs : s.buffer = []) :
    s.device = text := by
  rw [← h.whole hgood, hs, List.append_nil]

end OutStream

end Lib
