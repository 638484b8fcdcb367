import Sphere.Http.StartLine

/-! The texts on which the parser asks for more data. A cut is recognised inside the method,
inside the word `HTTP/` or the version, right behind a header line and inside the body;
wherever else a message is cut, `parse` rejects it, takes it for a whole message or leaves
its view. -/

namespace Sphere.Http

open Lib

/-! The header section and the body. -/

/-- The length header asks for more than there is. -/
def BodyLacks (headers : List Header) (body : Bytes) : Prop :=
  ∃ it ∈ headers.find? isLengthHeader, ∃ size ∈ stoul it.value, body.length < size

theorem parseBody_awaiting (headers : List Header) (sv : Bytes) :
    Awaiting (parseBody headers sv) ↔ BodyLacks headers sv := by
  unfold parseBody BodyLacks
  cases headers.find? isLengthHeader with
  | none =>
    dsimp only
    split_ifs <;> simp
  | some it =>
    simp only [Option.mem_some_iff, exists_eq_left']
    cases stoul it.value with
    | none => simp
    | some size =>
      simp only [Option.mem_some_iff, exists_eq_left']
      split_ifs with hlt hgt <;> simp [hlt]

/-- Header lines and nothing more yet, or the section and a part of the body. -/
def TailAwaits (names : List Bytes) (sv : Bytes) : Prop :=
  ∃ ls : List (HeaderLine names), Distinct (headersOf ls) ∧
    (sv = linesText ls ∨ ∃ eol body, sv = linesText ls ++ (eol ++ body) ∧ TailEnd eol body ∧
      BodyLacks (headersOf ls) body)

variable {names : List Bytes}

theorem parseTail_awaiting (ht : TableOk names) (sv : Bytes) :
    Awaiting (parseTail names sv) ↔ TailAwaits names sv := by
  refine ⟨fun h => ?_, ?_⟩
  · rcases parseHeaders_cases ht sv with ⟨w, hw⟩ | ⟨ls, rest, cur, rfl, hd, hend⟩
    · rw [parseTail, hw, error_bind] at h
      exact absurd h (not_awaiting_incorrect w)
    rcases rest with _ | ⟨c, _ | ⟨d, body⟩⟩
    · exact ⟨ls, hd, .inl (List.append_nil _)⟩
    · rw [parseTail_cut ht hd] at h
      exact absurd h not_awaiting_undefined
    · have htwo := SectionEnd.tailEnd hend
      have hsplit : c :: d :: body = [c, d] ++ body := rfl
      rw [hsplit, parseTail_end ht hd htwo, awaiting_bind, parseBody_awaiting] at h
      exact ⟨ls, hd, .inr ⟨[c, d], body, rfl, htwo, h.resolve_right (by simp)⟩⟩
  · rintro ⟨ls, hd, rfl | ⟨eol, body, rfl, hend, hlacks⟩⟩
    · have hend : SectionEnd [] none := .inr ⟨rfl, by simp [CRLF]⟩
      have hheaders := parseHeaders_lines ht hd hend
      rw [List.append_nil, if_pos ⟨rfl, rfl⟩] at hheaders
      rw [parseTail, hheaders, error_bind]
      exact awaiting_expecting _
    · rw [parseTail_end ht hd hend, awaiting_bind, parseBody_awaiting]
      exact .inl hlacks

/-! The messages. -/

/-- The start line is cut, or what is behind it asks for more. -/
inductive RequestAwaits : Bytes → Prop
  | start (s : Bytes) (h : StartAwaits s) : RequestAwaits s
  | tail (l : RequestLine) (x : UInt8) (sv : Bytes) (h : TailAwaits REQUEST_HEADER_NAMES sv) :
      RequestAwaits (l.text ++ CR :: x :: sv)

theorem Request.parse_awaiting (s : Bytes) : Awaiting (Request.parse s) ↔ RequestAwaits s := by
  refine ⟨fun h => ?_, fun h => ?_⟩
  · rcases Request.parse_start_cases s with ⟨w, hw⟩ | hcut | ⟨l, r, rfl, hr⟩
    · rw [hw] at h
      exact absurd h (not_awaiting_incorrect w)
    · exact .start s hcut
    match r, hr with
    | [c], hr =>
      obtain rfl : c = CR := by simpa using hr
      rw [Request.parse_cut] at h
      exact absurd h not_awaiting_undefined
    | c :: x :: sv, hr =>
      obtain rfl : c = CR := by simpa using hr
      rw [Request.parse_line_cons, awaiting_bind, parseTail_awaiting request_table_ok] at h
      exact .tail l x sv (h.resolve_right (by simp))
  · cases h with
    | start s hcut => exact hcut.awaiting
    | tail l x sv htail =>
      rw [Request.parse_line_cons, awaiting_bind, parseTail_awaiting request_table_ok]
      exact .inl htail

inductive ResponceAwaits : Bytes → Prop
  | start (s : Bytes) (h : StatusAwaits s) : ResponceAwaits s
  | tail (l : ResponceLine) (sv : Bytes) (h : TailAwaits RESPONCE_HEADER_NAMES sv) :
      ResponceAwaits (l.full ++ (CRLF ++ sv))

theorem Responce.parse_awaiting (s : Bytes) : Awaiting (Responce.parse s) ↔ ResponceAwaits s := by
  refine ⟨fun h => ?_, fun h => ?_⟩
  · rcases Responce.parse_start_cases s with ⟨w, hw⟩ | hcut | ⟨l, sv, rfl⟩
    · rw [hw] at h
      exact absurd h (not_awaiting_incorrect w)
    · exact .start s hcut
    · rw [Responce.parse_line, awaiting_bind, parseTail_awaiting responce_table_ok] at h
      exact .tail l sv (h.resolve_right (by simp))
  · cases h with
    | start s hcut => exact hcut.awaiting
    | tail l sv htail =>
      rw [Responce.parse_line, awaiting_bind, parseTail_awaiting responce_table_ok]
      exact .inl htail

end Sphere.Http
