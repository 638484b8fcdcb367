import Mathlib.Data.List.TakeWhile
import Sphere.Http.StartLine

/-! Serializing and parsing. `Readable` says what the parser leaves in the fields of
a message it accepts; a message with such fields is read back from its text under
every choice of blanks the grammar allows, `str` being one of them. -/

namespace Sphere.Http

open Lib

/-! Blanks a text may be written with. -/

/-- Blanks that end the token before them. -/
def Gap (b : Bytes) : Prop := Blank b ∧ b.head? = some SP

/-- The blanks of a header section: before each name and after each colon. -/
structure LineSpacing (n : ℕ) where
  lines : List (Bytes × Bytes)
  length_lines : lines.length = n
  blank : ∀ l ∈ lines, Blank l.1
  gap : ∀ l ∈ lines, Gap l.2

structure RequestSpacing (n : ℕ) extends LineSpacing n where
  before : Bytes
  gap₁ : Bytes
  gap₂ : Bytes
  after : Bytes
  blank_before : Blank before
  gap_gap₁ : Gap gap₁
  gap_gap₂ : Gap gap₂
  gap_after : after = [] ∨ Gap after

theorem gap_SP : Gap [SP] := by
  refine ⟨fun c hc => ?_, rfl⟩
  rw [List.mem_singleton.mp hc]
  rfl

def LineSpacing.canonical (n : ℕ) : LineSpacing n where
  lines := List.replicate n ([], [SP])
  length_lines := List.length_replicate
  blank l hl := by rw [List.eq_of_mem_replicate hl]; exact blank_nil
  gap l hl := by rw [List.eq_of_mem_replicate hl]; exact gap_SP

def RequestSpacing.canonical (n : ℕ) : RequestSpacing n where
  toLineSpacing := .canonical n
  before := []
  gap₁ := [SP]
  gap₂ := [SP]
  after := []
  blank_before := blank_nil
  gap_gap₁ := gap_SP
  gap_gap₂ := gap_SP
  gap_after := .inl rfl

/-! Texts. -/

def Header.render (w : Bytes × Bytes) (h : Header) : Bytes :=
  w.1 ++ h.name ++ [COLON] ++ w.2 ++ h.value ++ CRLF

def renderHeaders {n : ℕ} (w : LineSpacing n) (headers : List Header) : Bytes :=
  (List.zipWith Header.render w.lines headers).flatten

def Request.render (q : Request) (w : RequestSpacing q.headers.length) : Bytes :=
  w.before ++ q.method ++ w.gap₁ ++ q.target ++ w.gap₂ ++ lit "HTTP/" ++ q.version ++ w.after ++
    CRLF ++ renderHeaders w.toLineSpacing q.headers ++ CRLF ++ q.body

theorem renderHeaders_canonical (headers : List Header) :
    renderHeaders (.canonical headers.length) headers = headers.flatMap Header.str := by
  unfold renderHeaders LineSpacing.canonical
  induction headers with
  | nil => rfl
  | cons h headers ih =>
    have hstr : Header.render ([], [SP]) h = h.str := by
      simp [Header.render, Header.str, lit, COLON, SP]
    simp only [List.length_cons, List.replicate_succ, List.zipWith_cons_cons, List.flatten_cons,
      List.flatMap_cons, hstr, ih]

theorem Request.str_eq_render (q : Request) : q.str = q.render (.canonical _) := by
  simp only [Request.str, Request.render, RequestSpacing.canonical, renderHeaders_canonical,
    List.nil_append, List.append_nil]

/-! Fields. -/

/-- What the header loop leaves in a header. -/
structure Header.Readable (names : List Bytes) (h : Header) : Prop where
  known : KnownName names h.name
  clean : ∀ c ∈ h.name, endsToken c = false ∧ c ≠ COLON
  start : ∀ c ∈ h.value.head?, isSpace c = false
  crlf : ¬ CRLF <:+: h.value

structure Request.Readable (q : Request) : Prop where
  method_ne : q.method ≠ []
  method_prefix : ∃ m ∈ METHODS, q.method <+: m
  target_ne : q.target ≠ []
  target_clean : ∀ c ∈ q.target, endsToken c = false
  target_start : ∀ c ∈ q.target.head?, isSpace c = false
  version_ne : q.version ≠ []
  version_prefix : ∃ v ∈ VERSIONS, q.version <+: v
  headers : ∀ h ∈ q.headers, h.Readable REQUEST_HEADER_NAMES
  distinct : Distinct q.headers
  fits : BodyFits q.headers q.body

variable {names : List Bytes}

theorem HeaderLine.readable (l : HeaderLine names) : l.header.Readable names :=
  ⟨l.known, l.clean, l.value_start, l.value_crlf⟩

theorem readable_of_mem_headersOf {ls : List (HeaderLine names)} {h : Header}
    (hh : h ∈ headersOf ls) : h.Readable names := by
  obtain ⟨l, -, rfl⟩ := List.mem_map.mp hh
  exact l.readable

theorem Request.readable_of_parse {s : Bytes} {q : Request} (h : Request.parse s = .ok q) :
    q.Readable := by
  obtain ⟨l, x, ls, eol, -, hq, hd, -, hfit⟩ := Request.parse_ok_iff.mp h
  refine ⟨?_, ?_, ?_, ?_, ?_, ?_, ?_, ?_, hd, hfit⟩ <;> rw [hq]
  · exact l.method_ne
  · exact l.method_prefix
  · exact l.target_ne
  · exact l.target_clean
  · exact l.target_start
  · exact l.proto.version_ne
  · exact l.proto.version_prefix
  · exact fun h hh => readable_of_mem_headersOf hh

def protocolOf {version : Bytes} (hne : version ≠ []) (hp : ∃ v ∈ VERSIONS, version <+: v) :
    Protocol :=
  ⟨lit "HTTP/", version, Protocol.http.word_ne, Protocol.http.word_prefix, hne, hp⟩

/-- A line for a header, with blanks of one's own choice. -/
def Header.Readable.line {h : Header} (hr : h.Readable names) {w : Bytes × Bytes}
    (hblank : Blank w.1) (hgap : Gap w.2) : HeaderLine names where
  lead := w.1
  name := h.name
  gap := w.2
  value := h.value
  blank_lead := hblank
  blank_gap := hgap.1
  known := hr.known
  clean := hr.clean
  gap_start c hc := by
    rw [List.head?_append, hgap.2] at hc
    obtain rfl : SP = c := by simpa using hc
    rfl
  value_start := hr.start
  value_crlf := hr.crlf

theorem exists_lines {n : ℕ} (w : LineSpacing n) {headers : List Header}
    (hlen : n = headers.length) (hr : ∀ h ∈ headers, h.Readable names) :
    ∃ ls : List (HeaderLine names), linesText ls = renderHeaders w headers ∧
      headersOf ls = headers := by
  obtain ⟨lines, hl, hblank, hgap⟩ := w
  unfold renderHeaders
  dsimp only
  induction headers generalizing n lines with
  | nil => exact ⟨[], by simp [linesText], rfl⟩
  | cons h headers ih =>
    obtain ⟨w, lines, rfl⟩ : ∃ w ws, lines = w :: ws :=
      List.exists_cons_of_ne_nil fun h0 => by
        rw [h0] at hl
        simp at hl
        simp [← hl] at hlen
    obtain ⟨ls, htext, hheaders⟩ := ih (n := headers.length) rfl
      (fun h hh => hr h (List.mem_cons_of_mem _ hh)) lines (by simp at hl hlen; omega)
      (fun l hl => hblank l (List.mem_cons_of_mem _ hl))
      fun l hl => hgap l (List.mem_cons_of_mem _ hl)
    have hrh := hr h (by simp)
    refine ⟨hrh.line (hblank w (by simp)) (hgap w (by simp)) :: ls, ?_, ?_⟩
    · have hc := linesText_cons (hrh.line (hblank w (by simp)) (hgap w (by simp))) ls []
      simp only [List.append_nil] at hc
      rw [hc, htext]
      simp [HeaderLine.text, HeaderLine.beforeCRLF, Header.Readable.line, Header.render]
    · simpa [headersOf, HeaderLine.header, Header.Readable.line] using hheaders

theorem tailEnd_CRLF (body : Bytes) : TailEnd CRLF body := ⟨rfl, .inl rfl⟩

/-- Fields the parser can leave behind are read back, whatever the blanks. -/
theorem Request.parse_rendered {q : Request} (hq : q.Readable)
    (w : RequestSpacing q.headers.length) : Request.parse (q.render w) = .ok q := by
  obtain ⟨ls, htext, hheaders⟩ := exists_lines w.toLineSpacing rfl hq.headers
  have hafter : Blank w.after ∧ ∀ c ∈ w.after.head?, c = SP := by
    rcases w.gap_after with h | h
    · rw [h]
      exact ⟨blank_nil, by simp⟩
    · refine ⟨h.1, fun c hc => ?_⟩
      obtain rfl : SP = c := by simpa [h.2] using hc
      rfl
  let l : RequestLine := ⟨w.before, q.method, w.gap₁, q.target, w.gap₂,
    protocolOf hq.version_ne hq.version_prefix, w.after, w.blank_before, w.gap_gap₁.1,
    w.gap_gap₂.1, hafter.1, w.gap_gap₁.2, w.gap_gap₂.2, hafter.2, hq.method_ne, hq.method_prefix,
    hq.target_ne, hq.target_clean, hq.target_start⟩
  refine Request.parse_ok_iff.mpr
    ⟨l, LF, ls, CRLF, ?_, ?_, hq.distinct, tailEnd_CRLF _, hq.fits⟩
  · simp [l, Request.render, RequestLine.text, Protocol.text, protocolOf, ← htext, CRLF]
  · rw [hheaders]
    rfl

/-! The same for responses. The status token may be any numeral of the code. -/

structure ResponceSpacing (q : Responce) extends LineSpacing q.headers.length where
  before : Bytes
  gap₁ : Bytes
  digits : Bytes
  gap₂ : Bytes
  blank_before : Blank before
  gap_gap₁ : Gap gap₁
  digits_ne : digits ≠ []
  digits_all : ∀ c ∈ digits, Numeral.isDigit c = true
  digits_value : Numeral.value digits = q.code.toNat
  gap_gap₂ : Gap gap₂ ∨ gap₂ = [] ∧ q.text = []

def ResponceSpacing.canonical (q : Responce) : ResponceSpacing q where
  toLineSpacing := .canonical _
  before := []
  gap₁ := [SP]
  digits := Numeral.decimal q.code.toNat
  gap₂ := [SP]
  blank_before := blank_nil
  gap_gap₁ := gap_SP
  digits_ne := Numeral.decimal_ne_nil _
  digits_all _ hc := Numeral.isDigit_of_mem_decimal hc
  digits_value := Numeral.value_decimal _
  gap_gap₂ := .inl gap_SP

def Responce.render (q : Responce) (w : ResponceSpacing q) : Bytes :=
  w.before ++ lit "HTTP/" ++ q.version ++ w.gap₁ ++ w.digits ++ w.gap₂ ++ q.text ++ CRLF ++
    renderHeaders w.toLineSpacing q.headers ++ CRLF ++ q.body

theorem Responce.str_eq_render (q : Responce) : q.str = q.render (.canonical _) := by
  simp only [Responce.str, Responce.render, ResponceSpacing.canonical, renderHeaders_canonical,
    List.nil_append]

structure Responce.Readable (q : Responce) : Prop where
  version_ne : q.version ≠ []
  version_prefix : ∃ v ∈ VERSIONS, q.version <+: v
  code_le : q.code ≤ NetworkConnectTimeoutError
  text_start : ∀ c ∈ q.text.head?, isSpace c = false
  text_crlf : ¬ CRLF <:+: q.text
  headers : ∀ h ∈ q.headers, h.Readable RESPONCE_HEADER_NAMES
  distinct : Distinct q.headers
  fits : BodyFits q.headers q.body

theorem Responce.readable_of_parse {s : Bytes} {q : Responce} (h : Responce.parse s = .ok q) :
    q.Readable := by
  obtain ⟨l, ls, eol, -, hq, hd, -, hfit⟩ := Responce.parse_ok_iff.mp h
  refine ⟨?_, ?_, ?_, ?_, ?_, ?_, hd, hfit⟩ <;> rw [hq]
  · exact l.proto.version_ne
  · exact l.proto.version_prefix
  · exact l.code_le
  · exact l.text_start
  · exact l.text_crlf
  · exact fun h hh => readable_of_mem_headersOf hh

theorem digit_clean {c : UInt8} (hc : Numeral.isDigit c = true) :
    endsToken c = false ∧ isSpace c = false ∧ isSpaceC c = false ∧ c ≠ 45 ∧ c ≠ 43 := by
  obtain ⟨h1, h2⟩ := (Numeral.isDigit_iff c).mp hc
  simp only [endsToken, isSpace, isSpaceC, SP, CR, TAB, Bool.or_eq_false_iff, Bool.and_eq_false_iff,
    decide_eq_false_iff_not, ← UInt8.toNat_inj, UInt8.le_iff_toNat_le, ne_eq]
  refine ⟨⟨?_, ?_⟩, ⟨?_, ?_⟩, ⟨?_, .inr ?_⟩, ?_, ?_⟩ <;> simp <;> omega

/-- A run of digits is converted to the number it denotes, or is out of range. -/
theorem stoul_numeral {ds : Bytes} (hne : ds ≠ []) (hall : ∀ c ∈ ds, Numeral.isDigit c = true) :
    stoul ds = if Numeral.value ds < 2 ^ 64 then some (Numeral.value ds) else none := by
  obtain ⟨c, ds, rfl⟩ := List.exists_cons_of_ne_nil hne
  obtain ⟨-, -, hspace, hminus, hplus⟩ := digit_clean (hall c (by simp))
  have htake : (c :: ds).takeWhile Numeral.isDigit = c :: ds := List.takeWhile_eq_self_iff.mpr hall
  simp only [stoul, List.dropWhile_cons, hspace, Bool.false_eq_true, if_false, List.head?_cons,
    Option.some.injEq, hminus, hplus, or_self, htake, List.cons_ne_nil]

theorem stoul_digits {ds : Bytes} (hne : ds ≠ []) (hall : ∀ c ∈ ds, Numeral.isDigit c = true)
    (hlt : Numeral.value ds < 2 ^ 64) : stoul ds = some (Numeral.value ds) := by
  rw [stoul_numeral hne hall, if_pos hlt]

theorem Responce.parse_rendered {q : Responce} (hq : q.Readable) (w : ResponceSpacing q) :
    Responce.parse (q.render w) = .ok q := by
  obtain ⟨ls, htext, hheaders⟩ := exists_lines w.toLineSpacing rfl hq.headers
  have hlt : Numeral.value w.digits < 2 ^ 64 := by
    rw [w.digits_value]
    exact lt_trans q.code.toNat_lt (by norm_num)
  have hcode : UInt16.ofNat (Numeral.value w.digits) = q.code := by
    rw [w.digits_value, UInt16.ofNat_toNat]
  have hgap₂ : Blank w.gap₂ ∧ ∀ c ∈ (w.gap₂ ++ q.text).head?, endsToken c = true := by
    rcases w.gap_gap₂ with h | ⟨h1, h2⟩
    · refine ⟨h.1, fun c hc => ?_⟩
      rw [List.head?_append, h.2] at hc
      obtain rfl : SP = c := by simpa using hc
      rfl
    · rw [h1, h2]
      exact ⟨blank_nil, by simp⟩
  let l : ResponceLine := ⟨w.before, protocolOf hq.version_ne hq.version_prefix, w.gap₁, w.digits,
    Numeral.value w.digits, w.gap₂, q.text, w.blank_before, w.gap_gap₁.1, hgap₂.1, w.gap_gap₁.2,
    w.digits_ne, fun c hc => (digit_clean (w.digits_all c hc)).1,
    fun c hc => (digit_clean (w.digits_all c (List.mem_of_mem_head? hc))).2.1,
    stoul_digits w.digits_ne w.digits_all hlt, hcode ▸ hq.code_le, hgap₂.2, hq.text_start,
    hq.text_crlf⟩
  refine Responce.parse_ok_iff.mpr ⟨l, ls, CRLF, ?_, ?_, hq.distinct, tailEnd_CRLF _, hq.fits⟩
  · simp [l, Responce.render, ResponceLine.full, Protocol.text, protocolOf, ← htext]
  · rw [hheaders]
    simp only [l, ResponceLine.responce, protocolOf, hcode]

/-! Well-formed messages, as a sender means them. -/

structure Header.WellFormed (names : List Bytes) (h : Header) : Prop where
  known : h.name ∈ names ∨ lit "X-" <+: h.name
  clean : ∀ c ∈ h.name, c ≠ COLON ∧ c ≠ SP ∧ c ≠ CR
  start : ∀ c ∈ h.value.head?, c ≠ SP ∧ c ≠ TAB
  crlf : ¬ CRLF <:+: h.value

/-- The first length header holds the canonical numeral of the length of the body. -/
def BodyFramed (headers : List Header) (body : Bytes) : Prop :=
  match headers.find? isLengthHeader with
  | some it => it.value = Numeral.decimal body.length ∧ body.length < 2 ^ 64
  | none => body = []

structure Request.WellFormed (q : Request) : Prop where
  method : q.method ∈ METHODS ∧ q.method ≠ []
  target_ne : q.target ≠ []
  target_clean : ∀ c ∈ q.target, c ≠ SP ∧ c ≠ CR
  target_start : q.target.head? ≠ some TAB
  version : q.version ∈ VERSIONS
  headers : ∀ h ∈ q.headers, h.WellFormed REQUEST_HEADER_NAMES
  distinct : Distinct q.headers
  framed : BodyFramed q.headers q.body

structure Responce.WellFormed (q : Responce) : Prop where
  version : q.version ∈ VERSIONS
  code : q.code ≤ NetworkConnectTimeoutError
  text_start : ∀ c ∈ q.text.head?, c ≠ SP ∧ c ≠ TAB
  text_crlf : ¬ CRLF <:+: q.text
  headers : ∀ h ∈ q.headers, h.WellFormed RESPONCE_HEADER_NAMES
  distinct : Distinct q.headers
  framed : BodyFramed q.headers q.body

theorem endsToken_eq_false {c : UInt8} (h : c ≠ SP ∧ c ≠ CR) : endsToken c = false := by
  simp [endsToken, h.1, h.2]

theorem isSpace_eq_false {c : UInt8} (h : c ≠ SP ∧ c ≠ TAB) : isSpace c = false := by
  simp [isSpace, h.1, h.2]

theorem Header.WellFormed.readable {h : Header} (hw : h.WellFormed names) : h.Readable names :=
  ⟨hw.known, fun c hc => ⟨endsToken_eq_false (hw.clean c hc).2, (hw.clean c hc).1⟩,
    fun c hc => isSpace_eq_false (hw.start c hc), hw.crlf⟩

theorem bodyFits_of_framed {headers : List Header} {body : Bytes}
    (h : BodyFramed headers body) : BodyFits headers body := by
  unfold BodyFramed at h
  unfold BodyFits
  cases hf : headers.find? isLengthHeader with
  | none => simpa [hf] using h
  | some it =>
    obtain ⟨hv, hlt⟩ : it.value = Numeral.decimal body.length ∧ body.length < 2 ^ 64 := by
      simpa [hf] using h
    have hdigits := stoul_digits (Numeral.decimal_ne_nil body.length)
      (fun c => Numeral.isDigit_of_mem_decimal) (by rwa [Numeral.value_decimal])
    simp only [hv, hdigits, Numeral.value_decimal]

theorem VERSIONS_ne_nil : ∀ v ∈ VERSIONS, v ≠ [] := by decide

theorem Request.WellFormed.readable {q : Request} (hw : q.WellFormed) : q.Readable where
  method_ne := hw.method.2
  method_prefix := ⟨q.method, hw.method.1, List.prefix_rfl⟩
  target_ne := hw.target_ne
  target_clean c hc := endsToken_eq_false (hw.target_clean c hc)
  target_start c hc := isSpace_eq_false
    ⟨(hw.target_clean c (List.mem_of_mem_head? hc)).1, fun h => hw.target_start (h ▸ hc)⟩
  version_ne := VERSIONS_ne_nil _ hw.version
  version_prefix := ⟨q.version, hw.version, List.prefix_rfl⟩
  headers h hh := (hw.headers h hh).readable
  distinct := hw.distinct
  fits := bodyFits_of_framed hw.framed

theorem Responce.WellFormed.readable {q : Responce} (hw : q.WellFormed) : q.Readable where
  version_ne := VERSIONS_ne_nil _ hw.version
  version_prefix := ⟨q.version, hw.version, List.prefix_rfl⟩
  code_le := hw.code
  text_start c hc := isSpace_eq_false (hw.text_start c hc)
  text_crlf := hw.text_crlf
  headers h hh := (hw.headers h hh).readable
  distinct := hw.distinct
  fits := bodyFits_of_framed hw.framed

/-- Decoding undoes encoding: a well-formed message, rendered with any blanks, is
accepted with exactly its fields, and `str` writes the rendering with single spaces. -/
theorem parse_render (q : Request) (r : Responce) :
    (q.WellFormed → (∀ w, Request.parse (q.render w) = .ok q) ∧ q.str = q.render (.canonical _)) ∧
      (r.WellFormed →
        (∀ w, Responce.parse (r.render w) = .ok r) ∧ r.str = r.render (.canonical _)) :=
  ⟨fun hq => ⟨Request.parse_rendered hq.readable, q.str_eq_render⟩,
    fun hr => ⟨Responce.parse_rendered hr.readable, r.str_eq_render⟩⟩

def helloRequest : Request :=
  ⟨lit "POST", lit "/a", lit "1.1", [⟨lit "Host", lit "h"⟩, ⟨lit "Content-Length", lit "2"⟩],
    lit "hi"⟩

def helloResponce : Responce :=
  ⟨lit "1.1", 200, lit "OK", [⟨lit "Content-Length", lit "2"⟩], lit "hi"⟩

theorem helloRequest_wellFormed : helloRequest.WellFormed where
  method := by decide
  target_ne := by decide
  target_clean := by decide
  target_start := by decide
  version := by decide
  headers h hh := by
    have : h = ⟨lit "Host", lit "h"⟩ ∨ h = ⟨lit "Content-Length", lit "2"⟩ := by
      simpa [helloRequest] using hh
    rcases this with rfl | rfl <;> exact ⟨by decide, by decide, by decide, by decide⟩
  distinct := by unfold Distinct; decide
  framed := by
    show lit "2" = Numeral.decimal 2 ∧ 2 < 2 ^ 64
    decide

theorem helloResponce_wellFormed : helloResponce.WellFormed where
  version := by decide
  code := by decide
  text_start := by decide
  text_crlf := by decide
  headers h hh := by
    obtain rfl : h = ⟨lit "Content-Length", lit "2"⟩ := by simpa [helloResponce] using hh
    exact ⟨by decide, by decide, by decide, by decide⟩
  distinct := by unfold Distinct; decide
  framed := by
    show lit "2" = Numeral.decimal 2 ∧ 2 < 2 ^ 64
    decide

theorem parse_render_hello :
    Request.parse (helloRequest.render (.canonical _)) = .ok helloRequest ∧
      Responce.parse (helloResponce.render (.canonical _)) = .ok helloResponce :=
  ⟨((parse_render helloRequest helloResponce).1 helloRequest_wellFormed).1 _,
    ((parse_render helloRequest helloResponce).2 helloResponce_wellFormed).1 _⟩

/-- Whatever the parser accepts, well-formed or not, it reads back from `str`. -/
theorem parse_str (s : Bytes) :
    (∀ q, Request.parse s = .ok q → Request.parse q.str = .ok q) ∧
      ∀ r, Responce.parse s = .ok r → Responce.parse r.str = .ok r := by
  refine ⟨fun q hq => ?_, fun r hr => ?_⟩
  · rw [q.str_eq_render]
    exact Request.parse_rendered (Request.readable_of_parse hq) _
  · rw [r.str_eq_render]
    exact Responce.parse_rendered (Responce.readable_of_parse hr) _

theorem parse_str_truncated :
    Request.parse (Request.str ⟨lit "GE", lit "/", lit "1", [], []⟩) =
      .ok ⟨lit "GE", lit "/", lit "1", [], []⟩ :=
  (parse_str (lit "GE / H1 \rXHo")).1 _ (by decide)

end Sphere.Http
