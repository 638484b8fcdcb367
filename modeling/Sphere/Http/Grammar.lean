import Sphere.Http.StartLine

/-! What an accepted message looks like. Behind the header lines the parser drops two
characters, whether they are an empty line or not; and a token may be a part of the entry
it is compared with. -/

namespace Sphere.Http

open Lib

/-! The header section. -/

variable {names : List Bytes}

/-- Header lines, an empty line and the body. -/
def SectionGrammar (names : List Bytes) (t : Bytes) (headers : List Header) (body : Bytes) : Prop :=
  ∃ ls : List (HeaderLine names), t = linesText ls ++ (CRLF ++ body) ∧ headers = headersOf ls

/-- An empty line stands in the text, which starts behind a line terminator. -/
def HasEmptyLine (t : Bytes) : Prop := CRLF <+: t ∨ CRLF ++ CRLF <:+: t

theorem not_crlf_prefix {c : UInt8} (hc : c ≠ CR) (t : Bytes) : ¬ CRLF <+: c :: t := by
  intro h
  rw [CRLF, List.cons_prefix_cons] at h
  exact hc h.1.symm

/-- Two terminators in a row do not start inside a line. -/
theorem terminators_inside {a t : Bytes} (ha : ¬ CRLF <:+: a)
    (h : CRLF ++ CRLF <:+: a ++ (CRLF ++ t)) : CRLF <+: t ∨ CRLF ++ CRLF <:+: t := by
  have hfour : CRLF ++ CRLF = [CR, LF, CR, LF] := rfl
  induction a with
  | nil =>
    have htwo : [] ++ (CRLF ++ t) = CR :: LF :: t := rfl
    rw [hfour, htwo, List.infix_cons_iff, List.infix_cons_iff] at h
    rcases h with h | h | h
    · rw [List.cons_prefix_cons, List.cons_prefix_cons] at h
      exact .inl h.2.2
    · rw [List.cons_prefix_cons] at h
      exact absurd h.1 CR_ne_LF
    · exact .inr h
  | cons c a ih =>
    rw [List.cons_append, List.infix_cons_iff] at h
    rcases h with h | h
    · rw [hfour, List.cons_prefix_cons] at h
      obtain ⟨rfl, h⟩ := h
      cases a with
      | nil =>
        have htwo : [] ++ (CRLF ++ t) = CR :: LF :: t := rfl
        rw [htwo, List.cons_prefix_cons] at h
        exact absurd h.1.symm CR_ne_LF
      | cons d a =>
        rw [List.cons_append, List.cons_prefix_cons] at h
        obtain ⟨rfl, -⟩ := h
        exact absurd ⟨[], a, rfl⟩ ha
    · exact ih (fun hin => ha (List.infix_cons_iff.mpr (.inr hin))) h

theorem HeaderLine.head_ne_CR (ht : TableOk names) (l : HeaderLine names) (rest : Bytes) :
    ¬ CRLF <+: l.text ++ rest := by
  have hblank := blank_CR_not_mem l.blank_lead
  rw [l.text_append]
  cases hlead : l.lead with
  | cons c lead =>
    rw [hlead, List.mem_cons, not_or] at hblank
    exact not_crlf_prefix (Ne.symm hblank.1) _
  | nil =>
    obtain ⟨c, name, hname⟩ := List.exists_cons_of_ne_nil (knownName_start ht l.known).1
    have hc := (l.clean c (by simp [hname])).1
    rw [hname]
    refine not_crlf_prefix ?_ _
    rintro rfl
    simp [endsToken] at hc

/-- Header lines and a rest without CRLF have no empty line. -/
theorem not_hasEmptyLine (ht : TableOk names) (ls : List (HeaderLine names)) {rest : Bytes}
    (hno : ¬ CRLF <:+: rest) : ¬ HasEmptyLine (linesText ls ++ rest) := by
  induction ls with
  | nil =>
    rw [linesText, List.flatMap_nil, List.nil_append]
    rintro (h | h)
    · exact hno h.isInfix
    · exact hno ((List.prefix_append CRLF CRLF).isInfix.trans h)
  | cons l ls ih =>
    rw [linesText_cons]
    rintro (h | h)
    · exact l.head_ne_CR ht _ h
    · rw [HeaderLine.text, List.append_assoc] at h
      exact ih (terminators_inside l.beforeCRLF_no_crlf h)

theorem hasEmptyLine_lines (ls : List (HeaderLine names)) (body : Bytes) :
    HasEmptyLine (linesText ls ++ (CRLF ++ body)) := by
  cases ls using List.reverseRecOn with
  | nil => exact .inl (List.prefix_append _ _)
  | append_singleton ls l =>
    refine .inr ⟨linesText ls ++ l.beforeCRLF, body, ?_⟩
    simp [linesText, HeaderLine.text]

theorem section_grammar_iff (ht : TableOk names) {t body : Bytes} {headers : List Header}
    (h : parseTail names t = .ok (headers, body)) :
    SectionGrammar names t headers body ↔ HasEmptyLine t := by
  refine ⟨?_, fun hempty => ?_⟩
  · rintro ⟨ls, rfl, -⟩
    exact hasEmptyLine_lines ls body
  · rcases (parseTail_ok_iff ht).mp h with ⟨ls, eol, rfl, rfl, -, ⟨-, rfl | hno⟩, -⟩
    · exact ⟨ls, rfl, rfl⟩
    · exact absurd hempty (not_hasEmptyLine ht ls hno)

/-- An accepted request is a request line, a CR with some character, and an accepted tail. -/
theorem Request.parse_ok_tail {l : RequestLine} {x : UInt8} {t : Bytes} {q : Request}
    (h : Request.parse (l.text ++ CR :: x :: t) = .ok q) :
    parseTail REQUEST_HEADER_NAMES t = .ok (q.headers, q.body) ∧
      q = l.request q.headers q.body := by
  rw [Request.parse_line_cons] at h
  obtain ⟨⟨headers, body⟩, ht, hq⟩ := bind_eq_ok.mp h
  obtain rfl := Except.ok.inj hq
  exact ⟨ht, rfl⟩

theorem Request.parse_ok_line {s : Bytes} {q : Request} (h : Request.parse s = .ok q) :
    ∃ (l : RequestLine) (x : UInt8) (t : Bytes), s = l.text ++ CR :: x :: t := by
  obtain ⟨l, x, ls, eol, hs, -⟩ := Request.parse_ok_iff.mp h
  exact ⟨l, x, _, hs⟩

theorem Responce.parse_ok_tail {l : ResponceLine} {t : Bytes} {q : Responce}
    (h : Responce.parse (l.full ++ (CRLF ++ t)) = .ok q) :
    parseTail RESPONCE_HEADER_NAMES t = .ok (q.headers, q.body) ∧
      q = l.responce q.headers q.body := by
  rw [Responce.parse_line] at h
  obtain ⟨⟨headers, body⟩, ht, hq⟩ := bind_eq_ok.mp h
  obtain rfl := Except.ok.inj hq
  exact ⟨ht, rfl⟩

theorem Responce.parse_ok_line {s : Bytes} {q : Responce} (h : Responce.parse s = .ok q) :
    ∃ (l : ResponceLine) (t : Bytes), s = l.full ++ (CRLF ++ t) := by
  obtain ⟨l, ls, eol, hs, -⟩ := Responce.parse_ok_iff.mp h
  exact ⟨l, _, hs⟩

/-- What follows the start line of an accepted message is a header section, an empty line and
the body exactly when there is an empty line at all. -/
theorem header_sections_iff (s : Bytes) :
    (∀ q, Request.parse s = .ok q →
      (∃ (l : RequestLine) (x : UInt8) (t : Bytes), s = l.text ++ CR :: x :: t) ∧
      ∀ (l : RequestLine) (x : UInt8) (t : Bytes), s = l.text ++ CR :: x :: t →
        (SectionGrammar REQUEST_HEADER_NAMES t q.headers q.body ↔ HasEmptyLine t)) ∧
    ∀ q, Responce.parse s = .ok q →
      (∃ (l : ResponceLine) (t : Bytes), s = l.full ++ (CRLF ++ t)) ∧
      ∀ (l : ResponceLine) (t : Bytes), s = l.full ++ (CRLF ++ t) →
        (SectionGrammar RESPONCE_HEADER_NAMES t q.headers q.body ↔ HasEmptyLine t) := by
  refine ⟨fun q h => ⟨Request.parse_ok_line h, ?_⟩, fun q h => ⟨Responce.parse_ok_line h, ?_⟩⟩
  · rintro l x t rfl
    exact section_grammar_iff request_table_ok (Request.parse_ok_tail h).1
  · rintro l t rfl
    exact section_grammar_iff responce_table_ok (Responce.parse_ok_tail h).1

theorem header_sections_hello : ∃ (l : RequestLine) (x : UInt8) (t : Bytes),
    lit "GET / HTTP/1.1\r\nHost: a\r\n\r\n" = l.text ++ CR :: x :: t ∧
      (SectionGrammar REQUEST_HEADER_NAMES t [⟨lit "Host", lit "a"⟩] [] ↔ HasEmptyLine t) := by
  obtain ⟨⟨l, x, t, h⟩, hiff⟩ := (header_sections_iff
    (lit "GET / HTTP/1.1\r\nHost: a\r\n\r\n")).1
      ⟨lit "GET", lit "/", lit "1.1", [⟨lit "Host", lit "a"⟩], []⟩ rfl
  exact ⟨l, x, t, h, hiff l x t h⟩

/-- A request that breaks off in its first header line is accepted. -/
theorem section_cut_accepted :
    Request.parse (lit "GET / HTTP/1.1\r\n" ++ lit "Ho") =
      .ok ⟨lit "GET", lit "/", lit "1.1", [], []⟩ ∧
      ¬ SectionGrammar REQUEST_HEADER_NAMES (lit "Ho") [] [] := by
  refine ⟨rfl, ?_⟩
  rintro ⟨ls, ht, hls⟩
  obtain rfl : ls = [] := List.map_eq_nil_iff.mp hls.symm
  exact absurd ht (by decide)

/-! The start lines. -/

/-- The names of the table of methods, which ends in an empty entry. -/
def METHOD_NAMES : List Bytes := METHODS.filter (· ≠ [])

/-- `HTTP/` and a version. -/
def Protocol.Exact (p : Protocol) : Prop := ∃ v ∈ VERSIONS, p.text = lit "HTTP/" ++ v

/-- The request starts with a whole request line. -/
def RequestStart (s : Bytes) : Prop :=
  ∃ (l : RequestLine) (rest : Bytes), s = l.text ++ (CRLF ++ rest) ∧ l.method ∈ METHOD_NAMES ∧
    l.target ≠ [] ∧ l.proto.Exact

def ResponceStart (s : Bytes) : Prop :=
  ∃ (l : ResponceLine) (rest : Bytes), s = l.full ++ (CRLF ++ rest) ∧ l.proto.Exact

/-- The token is a proper part of an entry. -/
def CutShort (token : Bytes) (range : List Bytes) : Prop := ∃ e ∈ range, token <+: e ∧ token ≠ e

def Protocol.CutShort (p : Protocol) : Prop :=
  Http.CutShort p.word [lit "HTTP/"] ∨ Http.CutShort p.version VERSIONS

theorem mem_of_not_cutShort {token : Bytes} {range : List Bytes} (h : ¬ CutShort token range)
    (hp : ∃ e ∈ range, token <+: e) : token ∈ range := by
  obtain ⟨e, he, hpe⟩ := hp
  by_contra hne
  exact h ⟨e, he, hpe, fun heq => hne (heq ▸ he)⟩

theorem not_cutShort_of_mem {token : Bytes} {range : List Bytes} (ha : Antichain range)
    (hne : token ≠ []) (h : token ∈ range) : ¬ CutShort token range := by
  rintro ⟨e, he, hp, hcut⟩
  exact hcut (ha token h e he hne hp)

theorem Protocol.exact_iff (p : Protocol) : p.Exact ↔ ¬ p.CutShort := by
  refine ⟨?_, fun h => ?_⟩
  · rintro ⟨v, hv, hp⟩
    have hlen : p.word.length = (lit "HTTP/").length := by
      rw [← p.mismatch_text, hp]
      have hsplit := mismatch_append (p := lit "HTTP/") (a := []) (b := v) nofun
      rwa [List.append_nil] at hsplit
    obtain ⟨hword, hversion⟩ := List.append_inj hp hlen
    rintro (⟨e, he, -, hne⟩ | hcut)
    · rw [List.mem_singleton.mp he] at hne
      exact hne hword
    · exact not_cutShort_of_mem VERSIONS_antichain p.version_ne (hversion ▸ hv) hcut
  · rw [Protocol.CutShort, not_or] at h
    have hword := mem_of_not_cutShort h.1 ⟨_, List.mem_singleton.mpr rfl, p.word_prefix⟩
    exact ⟨p.version, mem_of_not_cutShort h.2 p.version_prefix, by
      rw [Protocol.text, List.mem_singleton.mp hword]⟩

/-- A text has one request line in front of a carriage return. -/
theorem RequestLine.unique {l l' : RequestLine} {r r' : Bytes} (hr : r.head? = some CR)
    (hr' : r'.head? = some CR) (h : l.text ++ r = l'.text ++ r') :
    l.method = l'.method ∧ l.target = l'.target ∧ l.proto.text = l'.proto.text ∧ r = r' := by
  obtain ⟨r₀, r₁, r₂, h₀, h₁, h₂, h₃⟩ := l.reads hr
  obtain ⟨r₀', r₁', r₂', h₀', h₁', h₂', h₃'⟩ := l'.reads hr'
  rw [h, h₀'] at h₀
  obtain ⟨hm, rfl⟩ := Prod.mk.inj (Except.ok.inj h₀)
  rw [h₁'] at h₁
  obtain ⟨ht, rfl⟩ := Prod.mk.inj (Except.ok.inj h₁)
  rw [h₂'] at h₂
  obtain ⟨hp, rfl⟩ := Prod.mk.inj (Except.ok.inj h₂)
  exact ⟨hm.symm, ht.symm, hp.symm, h₃.symm.trans h₃'⟩

/-- The status line of a response, up to the protocol. -/
theorem ResponceLine.unique {l l' : ResponceLine} {r r' : Bytes}
    (h : l.full ++ r = l'.full ++ r') : l.proto.text = l'.proto.text := by
  have hreads : ∀ (l : ResponceLine) (r : Bytes), ∃ r₀,
      readToken (l.full ++ r) = .ok (l.proto.text, r₀) := by
    intro l r
    have hread := readToken_append l.blank_lead
      (l.proto.isToken (l.stop_gap₁ (l.token ++ (l.gap₂ ++ (l.text ++ r)))))
    have hsplit : l.full ++ r = l.lead ++ l.proto.text ++
        (l.gap₁ ++ (l.token ++ (l.gap₂ ++ (l.text ++ r)))) := by
      simp [ResponceLine.full]
    exact ⟨_, hsplit ▸ hread⟩
  obtain ⟨r₀, h₀⟩ := hreads l r
  obtain ⟨r₀', h₀'⟩ := hreads l' r'
  rw [h, h₀'] at h₀
  exact (Prod.mk.inj (Except.ok.inj h₀)).1.symm

theorem METHOD_NAMES_iff {method : Bytes} (hne : method ≠ [])
    (hp : ∃ m ∈ METHODS, method <+: m) :
    method ∈ METHOD_NAMES ↔ ¬ CutShort method METHODS := by
  have hmem : method ∈ METHOD_NAMES ↔ method ∈ METHODS := by
    simp [METHOD_NAMES, hne]
  rw [hmem]
  exact ⟨not_cutShort_of_mem METHODS_antichain hne, fun h => mem_of_not_cutShort h hp⟩

theorem requestStart_iff (l : RequestLine) (x : UInt8) (t : Bytes) :
    RequestStart (l.text ++ CR :: x :: t) ↔
      ¬ CutShort l.method METHODS ∧ ¬ l.proto.CutShort ∧ x = LF := by
  rw [← METHOD_NAMES_iff l.method_ne l.method_prefix, ← Protocol.exact_iff]
  refine ⟨?_, ?_⟩
  · rintro ⟨l', rest, h, hm, -, v, hv, hp⟩
    obtain ⟨hm', -, hp', hr⟩ := RequestLine.unique rfl rfl h
    have hx : x = LF := by simpa [CRLF] using congrArg (fun r => r.tail.head?) hr
    exact ⟨hm' ▸ hm, ⟨v, hv, hp'.trans hp⟩, hx⟩
  · rintro ⟨hm, hp, rfl⟩
    exact ⟨l, t, rfl, hm, l.target_ne, hp⟩

theorem responceStart_iff (l : ResponceLine) (t : Bytes) :
    ResponceStart (l.full ++ (CRLF ++ t)) ↔ ¬ l.proto.CutShort := by
  rw [← Protocol.exact_iff]
  refine ⟨?_, fun hp => ⟨l, t, rfl, hp⟩⟩
  rintro ⟨l', rest, h, v, hv, hp⟩
  exact ⟨v, hv, (ResponceLine.unique h).trans hp⟩

/-- The start line of an accepted message is whole exactly when no token of it is a proper part
of an entry and, in a request, its carriage return is followed by a line feed. -/
theorem start_lines_iff (s : Bytes) :
    (∀ q, Request.parse s = .ok q →
      (∃ (l : RequestLine) (x : UInt8) (t : Bytes), s = l.text ++ CR :: x :: t) ∧
      ∀ (l : RequestLine) (x : UInt8) (t : Bytes), s = l.text ++ CR :: x :: t →
        (RequestStart s ↔ ¬ CutShort l.method METHODS ∧ ¬ l.proto.CutShort ∧ x = LF)) ∧
    ∀ q, Responce.parse s = .ok q →
      (∃ (l : ResponceLine) (t : Bytes), s = l.full ++ (CRLF ++ t)) ∧
      ∀ (l : ResponceLine) (t : Bytes), s = l.full ++ (CRLF ++ t) →
        (ResponceStart s ↔ ¬ l.proto.CutShort) := by
  refine ⟨fun q h => ⟨Request.parse_ok_line h, ?_⟩, fun q h => ⟨Responce.parse_ok_line h, ?_⟩⟩
  · rintro l x t rfl
    exact requestStart_iff l x t
  · rintro l t rfl
    exact responceStart_iff l t

theorem start_lines_hello : ∃ (l : RequestLine) (x : UInt8) (t : Bytes),
    lit "PUT /a HTTP/1.0  \r\n\r\n" = l.text ++ CR :: x :: t ∧
      (RequestStart (lit "PUT /a HTTP/1.0  \r\n\r\n") ↔
        ¬ CutShort l.method METHODS ∧ ¬ l.proto.CutShort ∧ x = LF) := by
  obtain ⟨⟨l, x, t, h⟩, hiff⟩ := (start_lines_iff (lit "PUT /a HTTP/1.0  \r\n\r\n")).1
    ⟨lit "PUT", lit "/a", lit "1.0", [], []⟩ rfl
  exact ⟨l, x, t, h, hiff l x t h⟩

/-- A method, a word and a version that are cut short, and a line feed that is another
character. -/
theorem start_cut_accepted :
    (∃ q, Request.parse (lit "GE / HT1 \rx\r\n") = .ok q) ∧
      ¬ RequestStart (lit "GE / HT1 \rx\r\n") := by
  refine ⟨⟨_, rfl⟩, ?_⟩
  rintro ⟨l, rest, h, hm, -⟩
  obtain ⟨r₀, r₁, r₂, hread, -⟩ := l.reads (r := CRLF ++ rest) rfl
  rw [← h] at hread
  have hge : readToken (lit "GE / HT1 \rx\r\n") = .ok (lit "GE", lit " / HT1 \rx\r\n") := rfl
  rw [(Prod.mk.inj (Except.ok.inj (hge.symm.trans hread))).1.symm] at hm
  exact absurd hm (by decide)

end Sphere.Http
