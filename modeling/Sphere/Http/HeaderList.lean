import Sphere.Http.Grammar

/-! What holds of every list of headers that `parse_headers` returns, and of the text that
the list is serialised to. -/

namespace Sphere.Http

open Lib

structure HeaderList (names : List Bytes) (headers : List Header) : Prop where
  distinct : (headers.map Header.name).Nodup
  name : ∀ h ∈ headers, h.name ≠ [] ∧ (h.name ∈ names ∨ lit "X-" <+: h.name) ∧
    COLON ∉ h.name ∧ SP ∉ h.name ∧ CR ∉ h.name
  value : ∀ h ∈ headers, ¬ CRLF <:+: h.value ∧ ∀ c ∈ h.value.head?, c ≠ SP ∧ c ≠ TAB

/-- A line of the view ends where it starts, which is at the front or behind another one. -/
def EmptyLineAt (sv : Bytes) (p : ℕ) : Prop :=
  CRLF <+: sv.drop p ∧ (p = 0 ∨ 2 ≤ p ∧ CRLF <+: sv.drop (p - 2))

/-- The rest of the view starts with its first empty line. -/
def FirstEmptyLine (sv rest : Bytes) : Prop :=
  ∃ p, rest = sv.drop p ∧ EmptyLineAt sv p ∧ ∀ q < p, ¬ EmptyLineAt sv q

variable {names : List Bytes}

theorem headerList_of (ht : TableOk names) {ls : List (HeaderLine names)}
    (hd : Distinct (headersOf ls)) : HeaderList names (headersOf ls) := by
  refine ⟨hd, fun h hh => ?_, fun h hh => ?_⟩
  · obtain ⟨l, -, rfl⟩ := List.mem_map.mp hh
    refine ⟨(knownName_start ht l.known).1, l.known, fun hc => (l.clean COLON hc).2 rfl,
      fun hc => ?_, fun hc => ?_⟩
    · exact absurd (l.clean SP hc).1 (by decide)
    · exact absurd (l.clean CR hc).1 (by decide)
  · obtain ⟨l, -, rfl⟩ := List.mem_map.mp hh
    refine ⟨l.value_crlf, fun c hc => ?_⟩
    have hstart := l.value_start c hc
    simpa [isSpace] using hstart

/-! The first empty line. -/

/-- An empty line behind a header line is one of what follows it. -/
theorem emptyLineAt_line (ht : TableOk names) (l : HeaderLine names) {t : Bytes} {p : ℕ}
    (h : EmptyLineAt (l.text ++ t) p) : ∃ q, p = l.text.length + q ∧ EmptyLineAt t q := by
  obtain ⟨hat, rfl | ⟨hp, hbehind⟩⟩ := h
  · exact absurd hat (l.head_ne_CR ht t)
  · have hlen : l.text.length = l.beforeCRLF.length + 2 := by
      rw [HeaderLine.text, List.length_append]
      rfl
    have htext : l.text ++ t = l.beforeCRLF ++ CR :: LF :: t := by
      rw [HeaderLine.text, List.append_assoc]
      rfl
    have hle : l.beforeCRLF.length ≤ p - 2 := by
      rw [htext] at hbehind
      exact Search.length_le_of_pair_at CR_ne_LF l.beforeCRLF_no_crlf hbehind
    obtain ⟨q, rfl⟩ : ∃ q, p = l.text.length + q := ⟨p - l.text.length, by omega⟩
    refine ⟨q, rfl, ?_, ?_⟩
    · rwa [List.drop_length_add_append] at hat
    · rcases q with - | - | q
      · exact .inl rfl
      · -- the terminator would start at the line feed of the line
        have hq : l.text.length + (0 + 1) - 2 = (l.beforeCRLF ++ [CR]).length := by
          rw [hlen, List.length_append, List.length_singleton]
          omega
        have hcut : l.text ++ t = (l.beforeCRLF ++ [CR]) ++ LF :: t := by
          rw [htext, List.append_assoc]
          rfl
        have hfront := not_crlf_prefix CR_ne_LF.symm t
        rw [hq, hcut, List.drop_left] at hbehind
        exact absurd hbehind hfront
      · refine .inr ⟨by omega, ?_⟩
        have hq : l.text.length + (q + 1 + 1) - 2 = l.text.length + q := by omega
        rwa [hq, List.drop_length_add_append] at hbehind

theorem emptyLineAt_lines (ht : TableOk names) (ls : List (HeaderLine names)) {rest : Bytes}
    {p : ℕ} (h : EmptyLineAt (linesText ls ++ rest) p) : (linesText ls).length ≤ p := by
  induction ls generalizing p with
  | nil => exact Nat.zero_le p
  | cons l ls ih =>
    rw [linesText_cons] at h
    obtain ⟨q, rfl, hq⟩ := emptyLineAt_line ht l h
    have hle := ih hq
    rw [linesText, List.flatMap_cons, List.length_append]
    exact Nat.add_le_add_left hle _

theorem firstEmptyLine_lines (ht : TableOk names) (ls : List (HeaderLine names)) {rest : Bytes}
    (h : CRLF <+: rest) : FirstEmptyLine (linesText ls ++ rest) rest := by
  refine ⟨(linesText ls).length, List.drop_left.symm, ⟨by rwa [List.drop_left], ?_⟩, ?_⟩
  · cases ls using List.reverseRecOn with
    | nil => exact .inl rfl
    | append_singleton ls l =>
      have hlines : linesText (ls ++ [l]) = linesText ls ++ l.beforeCRLF ++ CRLF := by
        simp [linesText, HeaderLine.text]
      refine .inr ⟨by rw [hlines, List.length_append]; exact Nat.le_add_left 2 _, ?_⟩
      have hlen : (linesText (ls ++ [l])).length - 2 = (linesText ls ++ l.beforeCRLF).length := by
        rw [hlines, List.length_append]
        rfl
      rw [hlen, hlines, List.append_assoc _ CRLF, List.drop_left]
      exact List.prefix_append CRLF rest
  · intro q hq hempty
    have hle := emptyLineAt_lines ht ls hempty
    omega

/-! The text of a list. -/

theorem count_str {h : Header} (hname : CR ∉ h.name) (hvalue : ¬ CRLF <:+: h.value) (b : Bytes) :
    Search.count CRLF (h.str ++ b) = Search.count CRLF b + 1 := by
  have hbefore : CR ∉ h.name ++ lit ": " := by
    rw [List.mem_append, not_or]
    exact ⟨hname, by decide⟩
  have hno : ¬ CRLF <:+: h.name ++ lit ": " ++ h.value := by
    rwa [crlf_infix_append hbefore]
  rw [Header.str, List.append_assoc]
  exact Search.count_pair_append CR_ne_LF b hno

theorem count_strs {headers : List Header}
    (h : ∀ h ∈ headers, CR ∉ h.name ∧ ¬ CRLF <:+: h.value) :
    Search.count CRLF (headers.flatMap Header.str) = headers.length := by
  induction headers with
  | nil => rfl
  | cons header headers ih =>
    rw [List.forall_mem_cons] at h
    rw [List.flatMap_cons, count_str h.1.1 h.1.2, ih h.2, List.length_cons]

theorem parse_headers_list {names : List Bytes}
    (hn : names = REQUEST_HEADER_NAMES ∨ names = RESPONCE_HEADER_NAMES) {sv rest : Bytes}
    {headers : List Header} (h : parseHeaders names sv = .ok (headers, rest)) :
    HeaderList names headers ∧ (FirstEmptyLine sv rest ∨ ¬ CRLF <:+: rest) ∧
      Search.count CRLF (headers.flatMap Header.str) = headers.length := by
  have ht : TableOk names := by
    rcases hn with rfl | rfl
    · exact request_table_ok
    · exact responce_table_ok
  rcases parseHeaders_cases ht sv with ⟨w, hw⟩ | ⟨ls, t, cur, rfl, hd, hend⟩
  · rw [hw] at h
    cases h
  · rw [parseHeaders_lines ht hd hend] at h
    split_ifs at h
    cases h
    have hlist := headerList_of ht hd
    refine ⟨hlist, ?_, ?_⟩
    · rcases hend with ⟨-, hcrlf⟩ | ⟨-, hno⟩
      · exact .inl (firstEmptyLine_lines ht ls hcrlf)
      · exact .inr hno
    · exact count_strs fun h hh => ⟨(hlist.name h hh).2.2.2.2, (hlist.value h hh).1⟩

/-- A name of the table and one of an extension, with a carriage return at the end of a value. -/
theorem parse_headers_list_two :
    HeaderList REQUEST_HEADER_NAMES [⟨lit "Host", lit "a\r"⟩, ⟨lit "X-b", lit ":"⟩] ∧
      FirstEmptyLine (lit "Host: a\r\r\nX-b:  :\r\n\r\nbody") (lit "\r\nbody") := by
  have hparse : parseHeaders REQUEST_HEADER_NAMES (lit "Host: a\r\r\nX-b:  :\r\n\r\nbody") =
      .ok ([⟨lit "Host", lit "a\r"⟩, ⟨lit "X-b", lit ":"⟩], lit "\r\nbody") := rfl
  have h := parse_headers_list (.inl rfl) hparse
  exact ⟨h.1, h.2.1.resolve_right (by decide)⟩

end Sphere.Http
