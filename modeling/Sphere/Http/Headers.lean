import Sphere.Http.Token

/-! The header section. `HeaderLine` is a line the loop takes off the view and
carries what the loop has checked of it; the loop accepts exactly the sequences of
such lines with distinct names, up to an empty line or to a rest without CRLF. -/

namespace Sphere.Http

open Lib

def COLON : UInt8 := 58

/-- A name the loop accepts: in the table, or an extension name. -/
def KnownName (names : List Bytes) (name : Bytes) : Prop := name ∈ names ∨ lit "X-" <+: name

structure HeaderLine (names : List Bytes) where
  lead : Bytes
  name : Bytes
  gap : Bytes
  value : Bytes
  blank_lead : Blank lead
  blank_gap : Blank gap
  known : KnownName names name
  clean : ∀ c ∈ name, endsToken c = false ∧ c ≠ COLON
  gap_start : ∀ c ∈ (gap ++ value).head?, endsToken c = true
  value_start : ∀ c ∈ value.head?, isSpace c = false
  value_crlf : ¬ CRLF <:+: value

variable {names : List Bytes}

namespace HeaderLine

def header (l : HeaderLine names) : Header := ⟨l.name, l.value⟩

def beforeCRLF (l : HeaderLine names) : Bytes :=
  l.lead ++ (l.name ++ [COLON]) ++ (l.gap ++ l.value)

def text (l : HeaderLine names) : Bytes := l.beforeCRLF ++ CRLF

end HeaderLine

def linesText (ls : List (HeaderLine names)) : Bytes := ls.flatMap HeaderLine.text

/-- Names the table may hold for `HeaderLine` to be read back: they start a token. -/
def TableOk (names : List Bytes) : Prop :=
  names.Pairwise (· < ·) ∧ ∀ name ∈ names, name ≠ [] ∧ ∀ c ∈ name.head?, isSpace c = false

theorem request_table_ok : TableOk REQUEST_HEADER_NAMES :=
  ⟨List.isChain_iff_pairwise.mp (by decide +kernel), by decide +kernel⟩

theorem responce_table_ok : TableOk RESPONCE_HEADER_NAMES :=
  ⟨List.isChain_iff_pairwise.mp (by decide +kernel), by decide +kernel⟩

theorem CR_ne_LF : CR ≠ LF := by decide

theorem knownName_start {name : Bytes} (ht : TableOk names) (h : KnownName names name) :
    name ≠ [] ∧ ∀ c ∈ name.head?, isSpace c = false := by
  rcases h with h | ⟨t, rfl⟩
  · exact ht.2 name h
  · refine ⟨by simp [lit], fun c hc => ?_⟩
    obtain rfl : c = 88 := by simpa [lit, eq_comm] using hc
    decide

theorem blank_CR_not_mem {b : Bytes} (hb : Blank b) : CR ∉ b := by
  intro h
  have := hb CR h
  simp [isSpace, CR, SP, TAB] at this

/-- No CRLF starts in a run without CR. -/
theorem crlf_infix_append {a b : Bytes} (ha : CR ∉ a) : CRLF <:+: a ++ b ↔ CRLF <:+: b := by
  induction a with
  | nil => simp
  | cons c a ih =>
    rw [List.mem_cons, not_or] at ha
    rw [List.cons_append, List.infix_cons_iff, ih ha.2]
    refine ⟨fun h => h.resolve_left fun hp => ha.1 ?_, .inr⟩
    simp only [CRLF, List.cons_prefix_cons] at hp
    exact hp.1

theorem find_crlf_append {a : Bytes} (b : Bytes) (ha : ¬ CRLF <:+: a) :
    Search.find CRLF (a ++ (CRLF ++ b)) = some a.length :=
  Search.find_pair_append CR_ne_LF b ha

theorem find_crlf_some {sv : Bytes} {n : ℕ} (h : Search.find CRLF sv = some n) :
    ∃ a b, sv = a ++ (CRLF ++ b) ∧ a.length = n ∧ ¬ CRLF <:+: a :=
  Search.find_pair_some h

namespace HeaderLine

theorem name_CR (l : HeaderLine names) : CR ∉ l.name ++ [COLON] := by
  rw [List.mem_append]
  rintro (h | h)
  · have := (l.clean CR h).1
    simp [endsToken] at this
  · exact absurd (List.mem_singleton.mp h) (by decide)

theorem beforeCRLF_no_crlf (l : HeaderLine names) : ¬ CRLF <:+: l.beforeCRLF := by
  unfold beforeCRLF
  rw [List.append_assoc, crlf_infix_append (blank_CR_not_mem l.blank_lead),
    crlf_infix_append l.name_CR, crlf_infix_append (blank_CR_not_mem l.blank_gap)]
  exact l.value_crlf

theorem text_append (l : HeaderLine names) (rest : Bytes) :
    l.text ++ rest = l.lead ++ (l.name ++ [COLON]) ++ (l.gap ++ (l.value ++ (CRLF ++ rest))) := by
  simp [text, beforeCRLF]

theorem find_text (l : HeaderLine names) (rest : Bytes) :
    Search.find CRLF (l.text ++ rest) = some l.beforeCRLF.length := by
  rw [text, List.append_assoc]
  exact find_crlf_append rest l.beforeCRLF_no_crlf

theorem length_text (l : HeaderLine names) : 2 < l.text.length := by
  simp [text, beforeCRLF, CRLF]
  omega

/-- A rest of the line that starts with CRLF or with the gap ends the name token. -/
theorem isToken (l : HeaderLine names) (ht : TableOk names) (rest : Bytes) :
    IsToken (l.name ++ [COLON]) (l.gap ++ (l.value ++ (CRLF ++ rest))) := by
  obtain ⟨hne, hstart⟩ := knownName_start ht l.known
  refine ⟨?_, ?_, ?_⟩
  · intro c hc
    rcases List.mem_append.mp hc with h | h
    · exact (l.clean c h).1
    · rw [List.mem_singleton.mp h]; decide
  · intro c hc
    obtain ⟨d, name, hd⟩ := List.exists_cons_of_ne_nil hne
    rw [hd] at hc hstart
    exact hstart c (by simpa using hc)
  · intro c hc
    by_cases h : l.gap ++ l.value = []
    · obtain ⟨hg, hv⟩ := List.append_eq_nil_iff.mp h
      rw [hg, hv] at hc
      obtain rfl : c = CR := by simpa [CRLF, eq_comm] using hc
      decide
    · apply l.gap_start c
      rw [← List.append_assoc, List.head?_append_of_ne_nil _ h] at hc
      exact hc

end HeaderLine

theorem findIdx?_colon {name : Bytes} (h : ∀ c ∈ name, c ≠ COLON) :
    (name ++ [COLON]).findIdx? (· = 58) = some ((name ++ [COLON]).length - 1) := by
  rw [Search.findIdx?_append_of_not]
  · simp
  · intro c hc
    simpa [COLON] using h c hc
  · simp [COLON]

theorem find_X_iff {name : Bytes} : Search.find (lit "X-") name = some 0 ↔ lit "X-" <+: name :=
  Search.find_zero_iff

theorem knownName_iff (ht : TableOk names) (name : Bytes) :
    ¬ (BinarySearch.binarySearch names name = false ∧ Search.find (lit "X-") name ≠ some 0) ↔
      KnownName names name := by
  rw [← Bool.not_eq_true, BinarySearch.binarySearch_iff_mem ht.1, ne_eq, find_X_iff, KnownName]
  tauto

/-- One round of the loop on a line it accepts. -/
theorem headerLoop_line (ht : TableOk names) (l : HeaderLine names) {headers : List Header}
    (hfresh : ∀ h ∈ headers, h.name ≠ l.name) (fuel : ℕ) (rest : Bytes) :
    headerLoop names (fuel + 1) headers (l.text ++ rest) =
      headerLoop names fuel (headers ++ [l.header]) rest := by
  have hpos : l.beforeCRLF.length = (l.beforeCRLF.length - 1) + 1 := by
    simp [HeaderLine.beforeCRLF]
    omega
  have hany : headers.any (fun h => h.name = l.name) = false := by
    rw [List.any_eq_false]
    intro h hh
    simpa using hfresh h hh
  have hstart : ∀ c ∈ (l.value ++ (CRLF ++ rest)).head?, isSpace c = false := by
    intro c hc
    cases hv : l.value with
    | nil =>
      rw [hv] at hc
      obtain rfl : c = CR := by simpa [CRLF, eq_comm] using hc
      decide
    | cons d v =>
      apply l.value_start c
      rw [hv] at hc ⊢
      simpa using hc
  rw [headerLoop, l.find_text rest, hpos]
  simp only [l.text_append, readToken_append l.blank_lead (l.isToken ht rest), ok_bind]
  rw [if_neg (by
    rw [findIdx?_colon fun c hc => (l.clean c hc).2]
    simp)]
  simp only [removeSuffix, List.length_append, List.length_singleton, Nat.le_add_left, if_true,
    Nat.add_sub_cancel, List.take_left, ok_bind]
  rw [if_neg ((knownName_iff ht l.name).mpr l.known), if_neg (by simp [hany])]
  simp only [leftStrip_append l.blank_gap hstart, find_crlf_append rest l.value_crlf, rangeTo,
    List.length_append, Nat.le_add_right, if_true, List.take_left, removePrefix,
    Option.getD_some, ok_bind]
  rw [if_pos (by simp [CRLF]), ok_bind, ← List.append_assoc, List.drop_left' (by simp [CRLF])]
  rfl

theorem snoc_of_findIdx?_colon {token : Bytes} (hne : token ≠ [])
    (h : token.findIdx? (· = 58) = some (token.length - 1)) :
    ∃ name, token = name ++ [COLON] ∧ ∀ c ∈ name, c ≠ COLON := by
  obtain ⟨name, c, rfl⟩ : ∃ name c, token = name ++ [c] :=
    ⟨token.dropLast, token.getLast hne, (List.dropLast_append_getLast hne).symm⟩
  have hlen : (name ++ [c]).length - 1 = name.length := by simp
  rw [hlen] at h
  obtain ⟨hlt, hc, hbefore⟩ := List.findIdx?_eq_some_iff_getElem.mp h
  rw [List.getElem_concat_length rfl, decide_eq_true_eq] at hc
  refine ⟨name, by rw [hc, COLON], fun d hd hd' => ?_⟩
  obtain ⟨j, hj, rfl⟩ := List.getElem_of_mem hd
  apply hbefore j (by omega)
  rw [List.getElem_append_left hj, hd']
  decide

/-- One round of the loop on any view with a CRLF further on: it rejects, or the
view starts with a line of the section. -/
theorem headerLoop_round (ht : TableOk names) {sv : Bytes} {n : ℕ}
    (hfind : Search.find CRLF sv = some (n + 1)) (fuel : ℕ) (headers : List Header) :
    (∃ w, headerLoop names (fuel + 1) headers sv = .error (.incorrectData w)) ∨
      ∃ (l : HeaderLine names) (rest : Bytes), sv = l.text ++ rest ∧
        ∀ h ∈ headers, h.name ≠ l.name := by
  obtain ⟨lead, token, r, hsv, hlead, htok, hread⟩ := readToken_spec sv
  by_cases hcolon : token = [] ∨ token.findIdx? (· = 58) ≠ some (token.length - 1)
  · exact .inl ⟨lit "Header name", by rw [headerLoop, hfind]; simp [hread, hcolon]⟩
  rw [not_or, not_not] at hcolon
  obtain ⟨name, rfl, hclean⟩ := snoc_of_findIdx?_colon hcolon.1 hcolon.2
  have hsuffix : removeSuffix 1 (name ++ [COLON]) = .ok name := by simp [removeSuffix]
  by_cases hknown : KnownName names name
  swap
  · rw [← knownName_iff ht, not_not] at hknown
    refine .inl ⟨lit "Header name", ?_⟩
    rw [headerLoop, hfind]
    simp only [hread, ok_bind]
    rw [if_neg (not_or.mpr ⟨hcolon.1, not_not.mpr hcolon.2⟩), hsuffix, ok_bind, if_pos hknown]
    rfl
  by_cases hmulti : headers.any (fun h => h.name = name) = true
  · refine .inl ⟨lit "Multiple header use", ?_⟩
    rw [headerLoop, hfind]
    simp only [hread, ok_bind]
    rw [if_neg (not_or.mpr ⟨hcolon.1, not_not.mpr hcolon.2⟩), hsuffix, ok_bind,
      if_neg ((knownName_iff ht name).mpr hknown), if_pos hmulti]
    rfl
  -- what follows the token still holds the CRLF, so a value ends at it
  obtain ⟨gap, hgap, hblank, hstart⟩ := leftStrip_spec r
  have hname : CR ∉ name ++ [COLON] := by
    intro h
    have := htok.inside CR h
    simp [endsToken] at this
  have hcrlf : CRLF <:+: leftStrip r := by
    obtain ⟨a, b, hab, -, -⟩ := find_crlf_some hfind
    have h1 : CRLF <:+: sv := ⟨a, b, by rw [hab, List.append_assoc]⟩
    rw [hsv, List.append_assoc, crlf_infix_append (blank_CR_not_mem hlead),
      crlf_infix_append hname, hgap, crlf_infix_append (blank_CR_not_mem hblank)] at h1
    exact h1
  obtain ⟨m, hm⟩ : ∃ m, Search.find CRLF (leftStrip r) = some m := by
    rw [← Option.ne_none_iff_exists', ne_eq, Search.find_eq_none_iff, not_not]
    exact hcrlf
  obtain ⟨value, rest, hvalue, -, hno⟩ := find_crlf_some hm
  rw [hvalue] at hgap hstart
  refine .inr ⟨⟨lead, name, gap, value, hlead, hblank, hknown, ?_, ?_, ?_, hno⟩, rest, ?_, ?_⟩
  · exact fun c hc => ⟨htok.inside c (List.mem_append_left _ hc), hclean c hc⟩
  · intro c hc
    apply htok.stop c
    rw [hgap, ← List.append_assoc, List.head?_append, hc]
    rfl
  · intro c hc
    apply hstart c
    rw [List.head?_append, hc]
    rfl
  · rw [HeaderLine.text_append, hsv]
    simp only [hgap]
  · intro h hh heq
    exact hmulti (List.any_eq_true.mpr ⟨h, hh, by simpa using heq⟩)

/-! Whole sections. -/

def headersOf (ls : List (HeaderLine names)) : List Header := ls.map HeaderLine.header

def Distinct (headers : List Header) : Prop := (headers.map Header.name).Nodup

theorem distinct_nil : Distinct (headersOf ([] : List (HeaderLine names))) := List.nodup_nil

/-- Where the loop stands when it ends: at an empty line, or without a CRLF left. -/
def SectionEnd (rest : Bytes) (cur : Option ℕ) : Prop :=
  cur = some 0 ∧ CRLF <+: rest ∨ cur = none ∧ ¬ CRLF <:+: rest

theorem linesText_cons (l : HeaderLine names) (ls : List (HeaderLine names)) (rest : Bytes) :
    linesText (l :: ls) ++ rest = l.text ++ (linesText ls ++ rest) := by
  simp [linesText]

theorem distinct_snoc {headers : List Header} {l : HeaderLine names} (hd : Distinct headers)
    (hfresh : ∀ h ∈ headers, h.name ≠ l.name) : Distinct (headers ++ [l.header]) := by
  unfold Distinct at *
  rw [List.map_append, List.nodup_append]
  refine ⟨hd, by simp, fun a ha b hb => ?_⟩
  obtain ⟨h, hh, rfl⟩ := List.mem_map.mp ha
  obtain rfl : b = l.name := by simpa [HeaderLine.header] using hb
  exact hfresh h hh

theorem fresh_of_distinct {headers : List Header} {l : HeaderLine names} {more : List Header}
    (hd : Distinct (headers ++ (l.header :: more))) : ∀ h ∈ headers, h.name ≠ l.name := by
  intro h hh
  unfold Distinct at hd
  rw [List.map_append, List.nodup_append] at hd
  exact hd.2.2 h.name (List.mem_map_of_mem hh) l.name (by simp [HeaderLine.header])

theorem headerLoop_end {rest : Bytes} {cur : Option ℕ} (h : SectionEnd rest cur) (fuel : ℕ)
    (headers : List Header) :
    headerLoop names (fuel + 1) headers rest = .ok (headers, rest, cur) := by
  rcases h with ⟨rfl, hp⟩ | ⟨rfl, hn⟩
  · rw [headerLoop, Search.find_zero_iff.mpr hp]
  · rw [headerLoop, (Search.find_eq_none_iff _ _).mpr hn]

/-- Lines with fresh names are taken off one by one. -/
theorem headerLoop_append (ht : TableOk names) (ls : List (HeaderLine names)) (fuel : ℕ)
    (rest : Bytes) : ∀ headers : List Header, Distinct (headers ++ headersOf ls) →
      headerLoop names (ls.length + fuel) headers (linesText ls ++ rest) =
        headerLoop names fuel (headers ++ headersOf ls) rest := by
  induction ls with
  | nil =>
    intro headers _
    simp [linesText, headersOf]
  | cons l ls ih =>
    intro headers hd
    have hassoc : headers ++ headersOf (l :: ls) = headers ++ [l.header] ++ headersOf ls := by
      simp [headersOf]
    have hlen : (l :: ls).length + fuel = (ls.length + fuel) + 1 := by
      rw [List.length_cons]
      omega
    rw [hlen, linesText_cons, headerLoop_line ht l (fresh_of_distinct hd), hassoc]
    exact ih _ (hassoc ▸ hd)

theorem headerLoop_lines (ht : TableOk names) {rest : Bytes} {cur : Option ℕ}
    (hend : SectionEnd rest cur) (ls : List (HeaderLine names)) (headers : List Header) (fuel : ℕ)
    (hd : Distinct (headers ++ headersOf ls)) (hfuel : ls.length < fuel) :
    headerLoop names fuel headers (linesText ls ++ rest) =
      .ok (headers ++ headersOf ls, rest, cur) := by
  obtain ⟨k, rfl⟩ : ∃ k, fuel = ls.length + (k + 1) := ⟨fuel - ls.length - 1, by omega⟩
  rw [headerLoop_append ht ls (k + 1) rest headers hd, headerLoop_end hend]

/-- With enough rounds the loop rejects, or it takes off lines with distinct names
and stops where the section ends. -/
theorem headerLoop_cases (ht : TableOk names) :
    ∀ (fuel : ℕ) (headers : List Header) (sv : Bytes), Distinct headers → sv.length < fuel →
      (∃ w, headerLoop names fuel headers sv = .error (.incorrectData w)) ∨
        ∃ (ls : List (HeaderLine names)) (rest : Bytes) (cur : Option ℕ),
          sv = linesText ls ++ rest ∧ Distinct (headers ++ headersOf ls) ∧ SectionEnd rest cur := by
  intro fuel
  induction fuel with
  | zero => intro headers sv _ h; omega
  | succ fuel ih =>
    intro headers sv hd hfuel
    cases hfind : Search.find CRLF sv with
    | none =>
      have hn := (Search.find_eq_none_iff _ _).mp hfind
      exact .inr ⟨[], sv, none, rfl, by simpa [headersOf] using hd, .inr ⟨rfl, hn⟩⟩
    | some n =>
      cases n with
      | zero =>
        have hp := Search.find_zero_iff.mp hfind
        exact .inr ⟨[], sv, some 0, rfl, by simpa [headersOf] using hd, .inl ⟨rfl, hp⟩⟩
      | succ n =>
        rcases headerLoop_round ht hfind fuel headers with hw | ⟨l, rest, rfl, hfresh⟩
        · exact .inl hw
        have hlen : rest.length < fuel := by
          have := l.length_text
          rw [List.length_append] at hfuel
          omega
        rcases ih (headers ++ [l.header]) rest (distinct_snoc hd hfresh) hlen with
          ⟨w, hw⟩ | ⟨ls, rest', cur, rfl, hd', hend⟩
        · exact .inl ⟨w, by rw [headerLoop_line ht l hfresh, hw]⟩
        · refine .inr ⟨l :: ls, rest', cur, (linesText_cons l ls rest').symm, ?_, hend⟩
          simpa [headersOf] using hd'

theorem length_le_linesText (ls : List (HeaderLine names)) : ls.length ≤ (linesText ls).length := by
  induction ls with
  | nil => simp
  | cons l ls ih =>
    have h1 := l.length_text
    have h2 := linesText_cons l ls []
    simp only [List.append_nil] at h2
    rw [h2, List.length_cons, List.length_append]
    omega

theorem parseHeaders_lines (ht : TableOk names) {ls : List (HeaderLine names)} {rest : Bytes}
    {cur : Option ℕ} (hd : Distinct (headersOf ls)) (hend : SectionEnd rest cur) :
    parseHeaders names (linesText ls ++ rest) =
      if cur = none ∧ rest = [] then .error (.expectingData (lit "Header"))
      else .ok (headersOf ls, rest) := by
  have hfuel : ls.length < (linesText ls ++ rest).length + 1 := by
    have := length_le_linesText ls
    rw [List.length_append]
    omega
  unfold parseHeaders
  rw [headerLoop_lines ht hend ls [] _ (by simpa using hd) hfuel]
  simp only [List.nil_append, ok_bind, throw_eq_error, pure_eq_ok]
  split_ifs <;> rfl

/-- Behind lines with distinct names the loop goes on to further ones. -/
theorem parseHeaders_append_cases (ht : TableOk names) {ls : List (HeaderLine names)}
    (hd : Distinct (headersOf ls)) (t : Bytes) :
    (∃ w, parseHeaders names (linesText ls ++ t) = .error (.incorrectData w)) ∨
      ∃ (more : List (HeaderLine names)) (rest : Bytes) (cur : Option ℕ),
        t = linesText more ++ rest ∧ Distinct (headersOf ls ++ headersOf more) ∧
          SectionEnd rest cur := by
  have hlen := length_le_linesText ls
  obtain ⟨k, hk⟩ : ∃ k, (linesText ls ++ t).length + 1 = ls.length + k ∧ t.length < k := by
    rw [List.length_append]
    exact ⟨(linesText ls).length + t.length + 1 - ls.length, by omega, by omega⟩
  rcases headerLoop_cases ht k (headersOf ls) t hd hk.2 with ⟨w, hw⟩ | hmore
  · refine .inl ⟨w, ?_⟩
    rw [parseHeaders, hk.1, headerLoop_append ht ls k t [] hd, List.nil_append, hw, error_bind]
  · exact .inr hmore

theorem parseHeaders_cases (ht : TableOk names) (sv : Bytes) :
    (∃ w, parseHeaders names sv = .error (.incorrectData w)) ∨
      ∃ (ls : List (HeaderLine names)) (rest : Bytes) (cur : Option ℕ),
        sv = linesText ls ++ rest ∧ Distinct (headersOf ls) ∧ SectionEnd rest cur :=
  parseHeaders_append_cases ht distinct_nil sv

/-! The body and the end both messages share. -/

/-- The body has the length the first length header asks for. -/
def BodyFits (headers : List Header) (body : Bytes) : Prop :=
  match headers.find? isLengthHeader with
  | some it => stoul it.value = some body.length
  | none => body = []

theorem parseBody_safe (headers : List Header) (sv : Bytes) : Safe (parseBody headers sv) := by
  unfold parseBody
  split
  · split
    · exact safe_incorrect _
    · split_ifs <;> simp
  · split_ifs <;> simp

theorem parseBody_ok_iff {headers : List Header} {sv body : Bytes} :
    parseBody headers sv = .ok body ↔ body = sv ∧ BodyFits headers sv := by
  unfold parseBody BodyFits
  cases headers.find? isLengthHeader with
  | none => by_cases h : sv = [] <;> simp [h, eq_comm]
  | some it =>
    cases hs : stoul it.value with
    | none => simp [hs]
    | some size =>
      simp only [hs, Option.some.injEq]
      split_ifs with h1 h2
      · simp; omega
      · simp; omega
      · have : size = sv.length := by omega
        simp [this, eq_comm]

/-- What `Request::parse` and `Responce::parse` do behind the start line. -/
def parseTail (names : List Bytes) (sv : Bytes) : Parse (List Header × Bytes) := do
  let (headers, sv) ← parseHeaders names sv
  let sv ← removePrefix 2 sv
  let body ← parseBody headers sv
  return (headers, body)

theorem removePrefix_two_append {eol body : Bytes} (h : eol.length = 2) :
    removePrefix 2 (eol ++ body) = .ok body := by
  unfold removePrefix
  rw [if_pos (by rw [List.length_append]; omega), List.drop_left' h]

/-- The two characters in front of the body: an empty line, or anything when no
CRLF follows the last header. -/
def TailEnd (eol body : Bytes) : Prop :=
  eol.length = 2 ∧ (eol = CRLF ∨ ¬ CRLF <:+: eol ++ body)

theorem TailEnd.sectionEnd {eol body : Bytes} (h : TailEnd eol body) :
    ∃ cur, SectionEnd (eol ++ body) cur := by
  rcases h.2 with rfl | hn
  · exact ⟨some 0, .inl ⟨rfl, List.prefix_append _ _⟩⟩
  · exact ⟨none, .inr ⟨rfl, hn⟩⟩

theorem SectionEnd.tailEnd {c d : UInt8} {body : Bytes} {cur : Option ℕ}
    (h : SectionEnd (c :: d :: body) cur) : TailEnd [c, d] body := by
  refine ⟨rfl, ?_⟩
  rcases h with ⟨-, hp⟩ | ⟨-, hn⟩
  · left
    simp only [CRLF, List.cons_prefix_cons, List.nil_prefix, and_true] at hp ⊢
    rw [hp.1, hp.2]
  · exact .inr hn

/-- Behind the section `parse_body` decides. -/
theorem parseTail_end (ht : TableOk names) {ls : List (HeaderLine names)} {eol body : Bytes}
    (hd : Distinct (headersOf ls)) (hend : TailEnd eol body) :
    parseTail names (linesText ls ++ (eol ++ body)) =
      (parseBody (headersOf ls) body >>= fun b => pure (headersOf ls, b)) := by
  obtain ⟨cur, hcur⟩ := hend.sectionEnd
  have hne : ¬ (cur = none ∧ eol ++ body = []) := by
    rintro ⟨-, hnil⟩
    have hlen := congrArg List.length hnil
    rw [List.length_append, hend.1] at hlen
    simp at hlen
  simp only [parseTail, parseHeaders_lines ht hd hcur, if_neg hne, ok_bind,
    removePrefix_two_append hend.1]

theorem parseTail_lines (ht : TableOk names) {ls : List (HeaderLine names)} {eol body : Bytes}
    (hd : Distinct (headersOf ls)) (hend : TailEnd eol body)
    (hfit : BodyFits (headersOf ls) body) :
    parseTail names (linesText ls ++ (eol ++ body)) = .ok (headersOf ls, body) := by
  rw [parseTail_end ht hd hend, parseBody_ok_iff.mpr ⟨rfl, hfit⟩]
  rfl

theorem parseTail_cut (ht : TableOk names) {ls : List (HeaderLine names)}
    (hd : Distinct (headersOf ls)) (c : UInt8) :
    parseTail names (linesText ls ++ [c]) = .error .undefined := by
  have hn : ¬ CRLF <:+: [c] := fun h => by simpa [CRLF] using h.length_le
  rw [parseTail, parseHeaders_lines ht hd (.inr ⟨rfl, hn⟩), if_neg (by simp), ok_bind]
  rfl

/-- The tail is rejected by an exception, or read as lines and a body, or steps out
of its view because a single character is left. -/
theorem parseTail_cases (ht : TableOk names) (sv : Bytes) :
    Thrown (parseTail names sv) ∨
      (∃ (ls : List (HeaderLine names)) (eol body : Bytes), sv = linesText ls ++ (eol ++ body) ∧
        Distinct (headersOf ls) ∧ TailEnd eol body ∧ BodyFits (headersOf ls) body) ∨
      ∃ (ls : List (HeaderLine names)) (c : UInt8), sv = linesText ls ++ [c] ∧
        Distinct (headersOf ls) := by
  rcases parseHeaders_cases ht sv with ⟨w, hw⟩ | ⟨ls, rest, cur, rfl, hd, hend⟩
  · exact .inl ⟨w, .inl (by simp [parseTail, hw])⟩
  have hh := parseHeaders_lines ht hd hend
  rcases rest with _ | ⟨c, _ | ⟨d, body⟩⟩
  · rcases hend with ⟨-, hp⟩ | ⟨rfl, -⟩
    · simp [CRLF] at hp
    · exact .inl ⟨lit "Header", .inr (by rw [parseTail, hh]; rfl)⟩
  · exact .inr (.inr ⟨ls, c, rfl, hd⟩)
  have htwo := SectionEnd.tailEnd hend
  have htail : parseTail names (linesText ls ++ c :: d :: body) =
      (parseBody (headersOf ls) body >>= fun b => pure (headersOf ls, b)) :=
    parseTail_end ht hd htwo
  rcases (parseBody_safe (headersOf ls) body).cases with hthrown | ⟨b, hb⟩
  · exact .inl (htail ▸ hthrown.bind _)
  · exact .inr (.inl ⟨ls, [c, d], body, rfl, hd, htwo, (parseBody_ok_iff.mp hb).2⟩)

theorem parseTail_ok_iff (ht : TableOk names) {sv body : Bytes} {headers : List Header} :
    parseTail names sv = .ok (headers, body) ↔
      ∃ (ls : List (HeaderLine names)) (eol : Bytes), sv = linesText ls ++ (eol ++ body) ∧
        headers = headersOf ls ∧ Distinct headers ∧ TailEnd eol body ∧ BodyFits headers body := by
  refine ⟨fun h => ?_, ?_⟩
  · rcases parseTail_cases ht sv with hw | ⟨ls, eol, body', rfl, hd, hend, hfit⟩ | ⟨ls, c, rfl, hd⟩
    · exact absurd h (hw.ne_ok _)
    · rw [parseTail_lines ht hd hend hfit] at h
      obtain ⟨rfl, rfl⟩ : headersOf ls = headers ∧ body' = body := by simpa using h
      exact ⟨ls, eol, rfl, rfl, hd, hend, hfit⟩
    · rw [parseTail_cut ht hd] at h
      cases h
  · rintro ⟨ls, eol, rfl, rfl, hd, hend, hfit⟩
    exact parseTail_lines ht hd hend hfit

theorem parseTail_undefined_iff (ht : TableOk names) {sv : Bytes} :
    parseTail names sv = .error .undefined ↔
      ∃ (ls : List (HeaderLine names)) (c : UInt8), sv = linesText ls ++ [c] ∧
        Distinct (headersOf ls) := by
  refine ⟨fun h => ?_, ?_⟩
  · rcases parseTail_cases ht sv with hw | ⟨ls, eol, body', rfl, hd, hend, hfit⟩ | hcut
    · exact absurd h hw.safe.1
    · rw [parseTail_lines ht hd hend hfit] at h
      cases h
    · exact hcut
  · rintro ⟨ls, c, rfl, hd⟩
    exact parseTail_cut ht hd c

theorem parseTail_ne_diverges (ht : TableOk names) (sv : Bytes) :
    parseTail names sv ≠ .error .diverges := by
  intro h
  rcases parseTail_cases ht sv with hw | ⟨ls, eol, body', rfl, hd, hend, hfit⟩ | ⟨ls, c, rfl, hd⟩
  · exact hw.safe.2 h
  · rw [parseTail_lines ht hd hend hfit] at h
    cases h
  · rw [parseTail_cut ht hd] at h
    cases h

end Sphere.Http
