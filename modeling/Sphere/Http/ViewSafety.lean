import Sphere.Http.StartLine

/-! Untrusted input and the views. Two steps of `parse` drop two characters without
looking how many are left: one behind a partly matched line terminator, one behind
the header section. The texts that reach them with a single character are exactly
those on which the parser leaves its view. -/

namespace Sphere.Http

/-- A request line with only the CR of its terminator behind it, or header lines
with one more character behind them. -/
def RequestCut (s : Bytes) : Prop :=
  (∃ l : RequestLine, s = l.text ++ [CR]) ∨
    ∃ (l : RequestLine) (x : UInt8) (ls : List (HeaderLine REQUEST_HEADER_NAMES)) (c : UInt8),
      s = l.text ++ CR :: x :: (linesText ls ++ [c]) ∧ Distinct (headersOf ls)

/-- A status line is found by its CRLF, so only the header section can be cut. -/
def ResponceCut (s : Bytes) : Prop :=
  ∃ (l : ResponceLine) (ls : List (HeaderLine RESPONCE_HEADER_NAMES)) (c : UInt8),
    s = l.full ++ (CRLF ++ (linesText ls ++ [c])) ∧ Distinct (headersOf ls)

theorem Request.parse_undefined_iff_cut (s : Bytes) :
    Request.parse s = .error .undefined ↔ RequestCut s := by
  rw [Request.parse_undefined_iff, RequestCut, exists_or]

/-- Both parsers terminate, and they stay inside their views, ending normally or by
one of their two exceptions, exactly on the texts that are not cut in these places. -/
theorem parse_safe_iff (s : Bytes) :
    (Safe (Request.parse s) ↔ ¬ RequestCut s) ∧ (Safe (Responce.parse s) ↔ ¬ ResponceCut s) := by
  refine ⟨?_, ?_⟩
  · rw [← Request.parse_undefined_iff_cut]
    exact and_iff_left (Request.parse_ne_diverges s)
  · rw [ResponceCut, ← Responce.parse_undefined_iff]
    exact and_iff_left (Responce.parse_ne_diverges s)

theorem parse_unsafe_at_cut_terminator :
    ¬ ∀ s, Safe (Request.parse s) ∧ Safe (Responce.parse s) := by
  intro h
  exact (h (lit "GET / HTTP/1.1\r")).1.1 (by decide)

example : Responce.parse (lit "HTTP/1.1 200 OK\r\nH") = .error .undefined := by decide

end Sphere.Http
