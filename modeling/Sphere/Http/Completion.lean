import Sphere.Http.Awaiting

/-! Whether a text that asks for more can still become a message. It can, unless the word
`HTTP/` is cut and something stands behind it, or the length header among its lines has no
number: then no continuation is accepted and every read asks for more again or rejects. -/

namespace Sphere.Http

open Lib

variable {names : List Bytes}

/-! The header section and the body. -/

/-- Header lines of which the first length header is no number. -/
def LengthUnread (names : List Bytes) (sv : Bytes) : Prop :=
  ∃ ls : List (HeaderLine names), sv = linesText ls ∧ Distinct (headersOf ls) ∧
    ∃ it ∈ (headersOf ls).find? isLengthHeader, stoul it.value = none

theorem LengthUnread.awaits {sv : Bytes} (h : LengthUnread names sv) : TailAwaits names sv := by
  obtain ⟨ls, rfl, hd, -⟩ := h
  exact ⟨ls, hd, .inl rfl⟩

theorem parseBody_unread {headers : List Header} {it : Header} (body : Bytes)
    (hit : headers.find? isLengthHeader = some it) (hnone : stoul it.value = none) :
    parseBody headers body = .error (.incorrectData (lit "Content length")) := by
  simp only [parseBody, hit, hnone]

/-- Whatever comes behind such lines, the first length header stays the same. -/
theorem LengthUnread.never {sv : Bytes} (ht : TableOk names) (h : LengthUnread names sv)
    (t : Bytes) (a : List Header × Bytes) : parseTail names (sv ++ t) ≠ .ok a := by
  obtain ⟨ls, rfl, hd, it, hit, hnone⟩ := h
  intro hok
  rcases parseHeaders_append_cases ht hd t with ⟨w, hw⟩ | ⟨more, rest, cur, rfl, hd', hend⟩
  · rw [parseTail, hw, error_bind] at hok
    cases hok
  have hall : headersOf ls ++ headersOf more = headersOf (ls ++ more) := by simp [headersOf]
  have hlines : linesText ls ++ (linesText more ++ rest) = linesText (ls ++ more) ++ rest := by
    simp [linesText]
  rw [hall] at hd'
  have hfind : (headersOf (ls ++ more)).find? isLengthHeader = some it := by
    rw [← hall, List.find?_append, hit]
    rfl
  rw [hlines] at hok
  rcases rest with _ | ⟨c, _ | ⟨d, body⟩⟩
  · have hcut := (parseTail_awaiting ht _).mpr ⟨ls ++ more, hd', .inl (List.append_nil _)⟩
    rw [hok] at hcut
    exact not_awaiting_ok a hcut
  · rw [parseTail_cut ht hd'] at hok
    cases hok
  · have hsplit : c :: d :: body = [c, d] ++ body := rfl
    rw [hsplit, parseTail_end ht hd' (SectionEnd.tailEnd hend), parseBody_unread body hfind hnone,
      error_bind] at hok
    cases hok

theorem parseTail_empty (ht : TableOk names) : parseTail names CRLF = .ok ([], []) := by
  have hend : TailEnd CRLF [] := ⟨rfl, .inl rfl⟩
  have hfits : BodyFits (headersOf ([] : List (HeaderLine names))) [] := rfl
  exact parseTail_lines ht distinct_nil hend hfits

/-- As many letters as the body lacks. -/
def filler (n : ℕ) : Bytes := List.replicate n 97

theorem TailEnd.fill {eol body : Bytes} (h : TailEnd eol body) (n : ℕ) :
    TailEnd eol (body ++ filler n) := by
  refine ⟨h.1, h.2.imp_right fun hno => ?_⟩
  have hlf : LF ∉ filler n := by
    intro hmem
    exact absurd (List.eq_of_mem_replicate hmem) (by decide)
  rw [← List.append_assoc]
  exact mt (Search.pair_infix_append_iff hlf (eol ++ body)).mp hno

theorem TailAwaits.completes (ht : TableOk names) {sv : Bytes} (h : TailAwaits names sv)
    (hread : ¬ LengthUnread names sv) : ∃ t a, t ≠ [] ∧ parseTail names (sv ++ t) = .ok a := by
  obtain ⟨ls, hd, rfl | ⟨eol, body, rfl, hend, it, hit, size, hsize, hlt⟩⟩ := h
  · obtain ⟨body, hfits⟩ : ∃ body, BodyFits (headersOf ls) body := by
      unfold BodyFits
      cases hfind : (headersOf ls).find? isLengthHeader with
      | none => exact ⟨[], rfl⟩
      | some it =>
        cases hn : stoul it.value with
        | none => exact absurd ⟨ls, rfl, hd, it, hfind, hn⟩ hread
        | some n => exact ⟨filler n, by simp [filler, hn]⟩
    exact ⟨CRLF ++ body, _, by simp [CRLF], parseTail_lines ht hd ⟨rfl, .inl rfl⟩ hfits⟩
  · have hlen : (body ++ filler (size - body.length)).length = size := by
      rw [List.length_append, filler, List.length_replicate]
      omega
    have hfits : BodyFits (headersOf ls) (body ++ filler (size - body.length)) := by
      simp only [BodyFits, Option.mem_def.mp hit, hlen]
      exact hsize
    refine ⟨filler (size - body.length), (headersOf ls, body ++ filler (size - body.length)),
      ?_, ?_⟩
    · intro hnil
      have hzero := congrArg List.length hnil
      rw [filler, List.length_replicate, List.length_nil] at hzero
      omega
    · rw [List.append_assoc, List.append_assoc]
      exact parseTail_lines ht hd (hend.fill _) hfits

/-! The tokens. -/

theorem IsToken.append {token rest : Bytes} (h : IsToken token rest) (hne : rest ≠ [])
    (t : Bytes) : IsToken token (rest ++ t) := by
  refine ⟨h.inside, fun c hc => h.start c ?_, fun c hc => h.stop c ?_⟩
  · rw [← List.append_assoc, List.head?_append_of_ne_nil] at hc
    · exact hc
    · exact fun hnil => hne (List.append_eq_nil_iff.mp hnil).2
  · rwa [List.head?_append_of_ne_nil _ hne] at hc

/-- The protocol token at the end of a text is completed. -/
theorem ProtocolAwaits.completes {token : Bytes} (h : ProtocolAwaits token []) :
    ∃ (u : Bytes) (p : Protocol), p.text = token ++ u := by
  obtain ⟨-, u, hu⟩ | ⟨-, p, rfl, -⟩ := h
  · refine ⟨u ++ lit "1.1", .http, ?_⟩
    rw [← List.append_assoc, hu]
    rfl
  · obtain ⟨v, hv, u, hu⟩ := p.version_prefix
    have hne : v ≠ [] := fun hnil => p.version_ne (List.append_eq_nil_iff.mp (hu.trans hnil)).1
    exact ⟨u, ⟨p.word, v, p.word_ne, p.word_prefix, hne, v, hv, List.prefix_refl v⟩, by
      simp [Protocol.text, ← hu]⟩

/-! The request. -/

/-- The protocol token ends within its word, before the end of the text, or the length
header is no number. -/
inductive Request.DeadEnd : Bytes → Prop
  | word (l : RequestLine) (token rest : Bytes) (ht : IsToken token rest) (hne : token ≠ [])
      (hp : token <+: lit "HTTP/") (hrest : rest ≠ []) :
      DeadEnd (l.front ++ (l.gap₂ ++ token ++ rest))
  | length (l : RequestLine) (x : UInt8) (sv : Bytes)
      (h : LengthUnread REQUEST_HEADER_NAMES sv) : DeadEnd (l.text ++ CR :: x :: sv)

theorem Request.DeadEnd.awaits {s : Bytes} (h : Request.DeadEnd s) : RequestAwaits s := by
  cases h with
  | word l token rest ht hne hp hrest => exact .start _ (.proto l token rest ht (.inl ⟨hne, hp⟩))
  | length l x sv h => exact .tail l x sv h.awaits

theorem Request.DeadEnd.never {s : Bytes} (h : Request.DeadEnd s) (t : Bytes) (q : Request) :
    Request.parse (s ++ t) ≠ .ok q := by
  intro hok
  cases h with
  | word l token rest ht hne hp hrest =>
    have hcut : StartAwaits (l.front ++ (l.gap₂ ++ token ++ (rest ++ t))) :=
      .proto l token (rest ++ t) (ht.append hrest t) (.inl ⟨hne, hp⟩)
    have hawaits := hcut.awaiting
    rw [← List.append_assoc (l.gap₂ ++ token), ← List.append_assoc l.front, hok] at hawaits
    exact not_awaiting_ok q hawaits
  | length l x sv h =>
    rw [List.append_assoc, List.cons_append, List.cons_append, Request.parse_line_cons] at hok
    obtain ⟨a, ha, -⟩ := bind_eq_ok.mp hok
    exact h.never request_table_ok t a ha

theorem Request.line_accepted (l : RequestLine) :
    ∃ q, Request.parse (l.text ++ (CRLF ++ CRLF)) = .ok q :=
  ⟨l.request [] [], (Request.parse_line_cons l LF CRLF).trans
    (by rw [parseTail_empty request_table_ok]; rfl)⟩

theorem StartAwaits.completes {s : Bytes} (h : StartAwaits s) (hlive : ¬ Request.DeadEnd s) :
    ∃ t q, t ≠ [] ∧ Request.parse (s ++ t) = .ok q := by
  cases h with
  | method lead token hb hne hnew hp =>
    obtain ⟨m, hm, u, hu⟩ := hp
    have hm₀ : m ≠ [] := fun hnil => hne (List.append_eq_nil_iff.mp (hu.trans hnil)).1
    let l : RequestLine := ⟨lead, m, [SP], lit "/", [SP], .http, [], hb, by simp [Blank, isSpace],
      by simp [Blank, isSpace], blank_nil, rfl, rfl, nofun, hm₀, ⟨m, hm, List.prefix_refl m⟩,
      by decide, by decide, by decide⟩
    obtain ⟨q, hq⟩ := Request.line_accepted l
    refine ⟨u ++ lit " / HTTP/1.1\r\n\r\n", q, by simp [lit], ?_⟩
    rw [← hq, List.append_assoc, ← List.append_assoc token, hu]
    simp [l, RequestLine.text, lit, Protocol.http, Protocol.text, CRLF, SP, CR, LF]
  | proto l token rest ht hawaits =>
    obtain rfl : rest = [] := by
      by_contra hrest
      obtain ⟨hne, hp⟩ | ⟨hnil, -⟩ := hawaits
      · exact hlive (.word l token rest ht hne hp hrest)
      · exact hrest hnil
    obtain ⟨u, p, hp⟩ := hawaits.completes
    let l' : RequestLine :=
      { l with
        proto := p
        gap₃ := []
        blank_gap₃ := blank_nil
        start_gap₃ := nofun }
    obtain ⟨q, hq⟩ := Request.line_accepted l'
    refine ⟨u ++ (CRLF ++ CRLF), q, by simp [CRLF], ?_⟩
    rw [← hq]
    simp [l', RequestLine.text, RequestLine.front, hp]

inductive Responce.DeadEnd : Bytes → Prop
  | word (lead token rest : Bytes) (hb : Blank lead) (ht : IsToken token rest) (hne : token ≠ [])
      (hp : token <+: lit "HTTP/") (hrest : rest ≠ []) : DeadEnd (lead ++ token ++ rest)
  | length (l : ResponceLine) (sv : Bytes) (h : LengthUnread RESPONCE_HEADER_NAMES sv) :
      DeadEnd (l.full ++ (CRLF ++ sv))

theorem Responce.DeadEnd.awaits {s : Bytes} (h : Responce.DeadEnd s) : ResponceAwaits s := by
  cases h with
  | word lead token rest hb ht hne hp hrest =>
    exact .start _ (.proto lead token rest hb ht (.inl ⟨hne, hp⟩))
  | length l sv h => exact .tail l sv h.awaits

theorem Responce.DeadEnd.never {s : Bytes} (h : Responce.DeadEnd s) (t : Bytes) (q : Responce) :
    Responce.parse (s ++ t) ≠ .ok q := by
  intro hok
  cases h with
  | word lead token rest hb ht hne hp hrest =>
    have hcut : StatusAwaits (lead ++ token ++ (rest ++ t)) :=
      .proto lead token (rest ++ t) hb (ht.append hrest t) (.inl ⟨hne, hp⟩)
    have hawaits := hcut.awaiting
    rw [← List.append_assoc (lead ++ token), hok] at hawaits
    exact not_awaiting_ok q hawaits
  | length l sv h =>
    rw [List.append_assoc, List.append_assoc, Responce.parse_line] at hok
    obtain ⟨a, ha, -⟩ := bind_eq_ok.mp hok
    exact h.never responce_table_ok t a ha

theorem Responce.line_accepted (l : ResponceLine) :
    ∃ q, Responce.parse (l.full ++ (CRLF ++ CRLF)) = .ok q :=
  ⟨l.responce [] [], by rw [Responce.parse_line, parseTail_empty responce_table_ok]; rfl⟩

/-- A status line breaks off anywhere behind its number. -/
theorem ResponceLine.exists_cut {lead gap token rest : Bytes} {n : ℕ} (p : Protocol)
    (hb : Blank lead) (hgap : Blank gap) (hstart : gap.head? = some SP) (ht : IsToken token rest)
    (hn : stoul token = some n) (hle : UInt16.ofNat n ≤ NetworkConnectTimeoutError)
    (hno : ¬ CRLF <:+: rest) : ∃ l : ResponceLine,
      lead ++ p.text ++ (gap ++ token ++ rest) ++ (CRLF ++ CRLF) = l.full ++ (CRLF ++ CRLF) := by
  obtain ⟨b, hrest, hb', hstrip⟩ := leftStrip_spec rest
  have hne : token ≠ [] := by
    rintro rfl
    cases hn
  have hhead : ∀ c ∈ (leftStrip rest ++ (CRLF ++ CRLF)).head?, isSpace c = false := by
    have := head_append_crlf CRLF (fun c => !isSpace c) (l := leftStrip rest)
      (fun c hc => by rw [hstrip c hc]; rfl) (by rfl)
    simpa using this
  have ht' : IsToken token (rest ++ (CRLF ++ CRLF)) := by
    refine ⟨ht.inside, fun c hc => ht.start c ?_, head_append_crlf CRLF endsToken ht.stop
      endsToken_CR⟩
    rw [List.head?_append_of_ne_nil _ hne] at hc ⊢
    exact hc
  have hr : leftStrip (rest ++ (CRLF ++ CRLF)) = leftStrip rest ++ (CRLF ++ CRLF) := by
    nth_rewrite 1 [hrest]
    rw [List.append_assoc, leftStrip_append hb' hhead]
  have hno' : ¬ CRLF <:+: leftStrip rest := by
    rwa [hrest, crlf_infix_append (blank_CR_not_mem hb')] at hno
  obtain ⟨l, hl, -⟩ := ResponceLine.exists_full (p := p) hb hgap hstart hne ht' hn hle hr hno'
  exact ⟨l, by rw [← hl]; simp⟩

theorem StatusAwaits.completes {s : Bytes} (h : StatusAwaits s) (hlive : ¬ Responce.DeadEnd s) :
    ∃ t q, t ≠ [] ∧ Responce.parse (s ++ t) = .ok q := by
  cases h with
  | proto lead token rest hb ht hawaits =>
    obtain rfl : rest = [] := by
      by_contra hrest
      obtain ⟨hne, hp⟩ | ⟨hnil, -⟩ := hawaits
      · exact hlive (.word lead token rest hb ht hne hp hrest)
      · exact hrest hnil
    obtain ⟨u, p, hp⟩ := hawaits.completes
    let l : ResponceLine := ⟨lead, p, [SP], lit "200", 200, [], [], hb, by simp [Blank, isSpace],
      blank_nil, rfl, by decide, by decide, by decide, by decide, by decide, nofun, nofun,
      by decide⟩
    obtain ⟨q, hq⟩ := Responce.line_accepted l
    refine ⟨u ++ lit " 200\r\n\r\n", q, by simp [lit], ?_⟩
    rw [← hq]
    simp [l, ResponceLine.full, hp, lit, CRLF, SP, CR, LF]
  | line lead p gap token rest n hb hgap hstart ht hn hle hno =>
    obtain ⟨l, hl⟩ := ResponceLine.exists_cut p hb hgap hstart ht hn hle hno
    obtain ⟨q, hq⟩ := Responce.line_accepted l
    exact ⟨CRLF ++ CRLF, q, by simp [CRLF], hl ▸ hq⟩

end Sphere.Http
