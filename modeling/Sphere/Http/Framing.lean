import Sphere.Http.Awaiting
import Sphere.Http.Grammar
import Sphere.Http.RoundTrip

/-! The numbers in a message. The length of the body is what `std::stoul` makes of the first
of two headers, and the status code is what 16 bits keep of it: both let more through than
decimal numerals. -/

namespace Sphere.Http

open Lib

/-- A decimal numeral, leading zeros allowed. -/
def Numeric (b : Bytes) : Prop := b ≠ [] ∧ ∀ c ∈ b, Numeral.isDigit c = true

instance (b : Bytes) : Decidable (Numeric b) := by
  unfold Numeric
  infer_instance

theorem stoul_numeric {b : Bytes} {n : ℕ} (hb : Numeric b) :
    stoul b = some n ↔ n < 2 ^ 64 ∧ n = Numeral.value b := by
  rw [stoul_numeral hb.1 hb.2]
  split_ifs with hlt
  · rw [Option.some.injEq]
    refine ⟨fun h => ⟨h ▸ hlt, h.symm⟩, fun h => h.2.symm⟩
  · refine ⟨nofun, fun h => ?_⟩
    rw [← h.2] at hlt
    exact absurd h.1 hlt

theorem stoul_lt {b : Bytes} {n : ℕ} (h : stoul b = some n) : n < 2 ^ 64 := by
  simp only [stoul, Option.ite_none_left_eq_some, Option.ite_none_right_eq_some,
    Option.some.injEq] at h
  obtain ⟨-, hlt, rfl⟩ := h
  generalize List.takeWhile _ _ = digits at hlt ⊢
  split_ifs
  · exact Nat.mod_lt _ (by norm_num)
  · exact hlt

/-! The body. -/

def isContentLength (h : Header) : Bool := h.name = lit "Content-Length"

/-- The body is as long as `Content-Length` says in decimal digits; without it there is none. -/
def Framed (headers : List Header) (body : Bytes) : Prop :=
  match headers.find? isContentLength with
  | some it => Numeric it.value ∧ Numeral.value it.value = body.length
  | none => body = []

/-- `Content-Length` is a decimal numeral, and a `Transfer-Encoding` in front of it the same
number; one without it is zero. -/
def LengthStated (headers : List Header) : Prop :=
  match headers.find? isContentLength with
  | some it => Numeric it.value ∧
      ∀ first ∈ headers.find? isLengthHeader, stoul first.value = stoul it.value
  | none => ∀ first ∈ headers.find? isLengthHeader, stoul first.value = some 0

theorem framed_iff {headers : List Header} {body : Bytes} (h : BodyFits headers body) :
    Framed headers body ↔ LengthStated headers := by
  unfold BodyFits at h
  unfold Framed LengthStated
  cases hcl : headers.find? isContentLength with
  | none =>
    cases hfirst : headers.find? isLengthHeader with
    | none =>
      rw [hfirst] at h
      simpa using h
    | some first =>
      rw [hfirst] at h
      simp only [Option.mem_some_iff, forall_eq', h, Option.some.injEq, List.length_eq_zero_iff]
  | some it =>
    obtain ⟨first, hfirst⟩ : ∃ first, headers.find? isLengthHeader = some first := by
      rw [← Option.isSome_iff_exists, List.find?_isSome]
      refine ⟨it, List.mem_of_find?_eq_some hcl, ?_⟩
      have hname := List.find?_some hcl
      simp only [isContentLength, decide_eq_true_eq] at hname
      simp [isLengthHeader, hname]
    rw [hfirst] at h
    simp only [hfirst, Option.mem_some_iff, forall_eq', h]
    refine and_congr_right fun hnum => ?_
    rw [eq_comm (a := some body.length), stoul_numeric hnum]
    exact ⟨fun he => ⟨stoul_lt h, he.symm⟩, fun he => he.2.symm⟩

variable {names : List Bytes}

/-- The header lines of the text behind a start line. -/
def SectionLines (t : Bytes) (ls : List (HeaderLine names)) : Prop :=
  Distinct (headersOf ls) ∧ ∃ eol body, t = linesText ls ++ (eol ++ body) ∧ TailEnd eol body

theorem parseTail_sectionLines (ht : TableOk names) {t body : Bytes} {headers : List Header}
    (h : parseTail names t = .ok (headers, body)) :
    (∃ ls : List (HeaderLine names), SectionLines t ls) ∧
      ∀ ls : List (HeaderLine names), SectionLines t ls →
        (Framed headers body ↔ LengthStated (headersOf ls)) := by
  obtain ⟨ls₀, eol₀, hs, hheaders, hd, hend, hfits⟩ := (parseTail_ok_iff ht).mp h
  refine ⟨⟨ls₀, hheaders ▸ hd, eol₀, body, hs, hend⟩, ?_⟩
  rintro ls ⟨hd', eol, body', rfl, hend'⟩
  rw [parseTail_end ht hd' hend'] at h
  obtain ⟨b, hb, hpair⟩ := bind_eq_ok.mp h
  obtain ⟨rfl, rfl⟩ := Prod.mk.inj (Except.ok.inj hpair)
  exact framed_iff hfits

/-- The body of an accepted message is framed exactly when the header lines state its length. -/
theorem bodies_framed_iff (s : Bytes) :
    (∀ q, Request.parse s = .ok q → ∃ (l : RequestLine) (x : UInt8) (t : Bytes),
      s = l.text ++ CR :: x :: t ∧
      (∃ ls : List (HeaderLine REQUEST_HEADER_NAMES), SectionLines t ls) ∧
      ∀ ls : List (HeaderLine REQUEST_HEADER_NAMES), SectionLines t ls →
        (Framed q.headers q.body ↔ LengthStated (headersOf ls))) ∧
    ∀ q, Responce.parse s = .ok q → ∃ (l : ResponceLine) (t : Bytes),
      s = l.full ++ (CRLF ++ t) ∧
      (∃ ls : List (HeaderLine RESPONCE_HEADER_NAMES), SectionLines t ls) ∧
      ∀ ls : List (HeaderLine RESPONCE_HEADER_NAMES), SectionLines t ls →
        (Framed q.headers q.body ↔ LengthStated (headersOf ls)) := by
  refine ⟨fun q h => ?_, fun q h => ?_⟩
  · obtain ⟨l, x, t, rfl⟩ := Request.parse_ok_line h
    exact ⟨l, x, t, rfl, parseTail_sectionLines request_table_ok (Request.parse_ok_tail h).1⟩
  · obtain ⟨l, t, rfl⟩ := Responce.parse_ok_line h
    exact ⟨l, t, rfl, parseTail_sectionLines responce_table_ok (Responce.parse_ok_tail h).1⟩

theorem bodies_framed_hello : ∃ (l : RequestLine) (x : UInt8) (t : Bytes)
    (ls : List (HeaderLine REQUEST_HEADER_NAMES)),
    lit "POST / HTTP/1.1\r\nContent-Length: 3\r\n\r\nabc" = l.text ++ CR :: x :: t ∧
      SectionLines t ls ∧
      (Framed [⟨lit "Content-Length", lit "3"⟩] (lit "abc") ↔ LengthStated (headersOf ls)) := by
  obtain ⟨l, x, t, h, ⟨ls, hls⟩, hiff⟩ := (bodies_framed_iff
    (lit "POST / HTTP/1.1\r\nContent-Length: 3\r\n\r\nabc")).1
      ⟨lit "POST", lit "/", lit "1.1", [⟨lit "Content-Length", lit "3"⟩], lit "abc"⟩ rfl
  exact ⟨l, x, t, ls, h, hls, hiff ls hls⟩

/-- A signed length with a letter behind it, and a body without a `Content-Length`. -/
theorem misstated_bodies_accepted :
    (Request.parse (lit "POST / HTTP/1.1\r\nContent-Length: +3x\r\n\r\nabc") =
        .ok ⟨lit "POST", lit "/", lit "1.1", [⟨lit "Content-Length", lit "+3x"⟩], lit "abc"⟩ ∧
      ¬ Framed [⟨lit "Content-Length", lit "+3x"⟩] (lit "abc")) ∧
    (Request.parse (lit "POST / HTTP/1.1\r\nTransfer-Encoding: 3\r\n\r\nabc") =
        .ok ⟨lit "POST", lit "/", lit "1.1", [⟨lit "Transfer-Encoding", lit "3"⟩], lit "abc"⟩ ∧
      ¬ Framed [⟨lit "Transfer-Encoding", lit "3"⟩] (lit "abc")) := by
  refine ⟨⟨rfl, ?_⟩, ⟨rfl, ?_⟩⟩
  · intro h
    have h : Numeric (lit "+3x") := h.1
    exact absurd h (by decide)
  · intro h
    have h : lit "abc" = [] := h
    exact absurd h (by decide)

/-! The status code. -/

/-- Behind blanks and a protocol, `s` has the status token `token`. -/
def StatusText (s token rest : Bytes) : Prop :=
  token ≠ [] ∧ IsToken token rest ∧ ∃ (lead : Bytes) (p : Protocol) (gap : Bytes),
    s = lead ++ p.text ++ (gap ++ token ++ rest) ∧ Blank lead ∧ Blank gap ∧ gap.head? = some SP

/-- A decimal numeral up to the last code. -/
def StatusNumeral (token : Bytes) : Prop :=
  Numeric token ∧ Numeral.value token ≤ NetworkConnectTimeoutError.toNat

/-- Another text, or a larger number, of which `std::stoul` and 16 bits leave a code. -/
def Aliased (token : Bytes) : Prop :=
  ¬ StatusNumeral token ∧
    ∃ n, stoul token = some n ∧ n % 2 ^ 16 ≤ NetworkConnectTimeoutError.toNat

theorem ofNat_le_iff (n : ℕ) : UInt16.ofNat n ≤ NetworkConnectTimeoutError ↔
    n % 2 ^ 16 ≤ NetworkConnectTimeoutError.toNat := by
  rw [UInt16.le_iff_toNat_le, UInt16.toNat_ofNat']

theorem StatusNumeral.stoul {token : Bytes} (h : StatusNumeral token) :
    stoul token = some (Numeral.value token) ∧
      (UInt16.ofNat (Numeral.value token)).toNat = Numeral.value token := by
  have hlast : NetworkConnectTimeoutError.toNat = 599 := rfl
  have hle := h.2
  refine ⟨stoul_digits h.1.1 h.1.2 (by omega), ?_⟩
  rw [UInt16.toNat_ofNat', Nat.mod_eq_of_lt (by omega)]

theorem StatusText.parse_eq {s token rest : Bytes} (h : StatusText s token rest) :
    ∃ version gap, Responce.parse s = Responce.parseCode version (gap ++ token ++ rest) ∧
      Blank gap := by
  obtain ⟨-, -, lead, p, gap, rfl, hb, hgap, hstart⟩ := h
  have hhead : (gap ++ token ++ rest).head? = some SP := by
    rw [List.append_assoc, List.head?_append, hstart]
    rfl
  have hne : gap ++ token ++ rest ≠ [] := fun hn => by simp [hn] at hhead
  have hstop : ∀ c ∈ (gap ++ token ++ rest).head?, endsToken c = true := by
    intro c hc
    rw [hhead] at hc
    obtain rfl : SP = c := by simpa using hc
    rfl
  refine ⟨p.version, gap, ?_, hgap⟩
  rw [Responce.parse_eq, parseProtocol_append hb p hstop hne]
  rfl

/-- A token that leaves no code in 16 bits is refused. -/
theorem StatusText.refused {s token rest : Bytes} (h : StatusText s token rest)
    (hn : ∀ n, stoul token = some n → NetworkConnectTimeoutError.toNat < n % 2 ^ 16) :
    ∃ w, Responce.parse s = .error (.incorrectData w) := by
  obtain ⟨version, gap, hparse, hgap⟩ := h.parse_eq
  simp only [hparse, Responce.parseCode, readToken_append hgap h.2.1, ok_bind, codeOfToken]
  cases hs : stoul token with
  | none => exact ⟨_, rfl⟩
  | some n =>
    have hlt := hn n hs
    have hlast : NetworkConnectTimeoutError.toNat = 599 := rfl
    have hbig : NetworkConnectTimeoutError < UInt16.ofNat n :=
      UInt16.not_le.mp fun hle => absurd ((ofNat_le_iff n).mp hle) (not_le.mpr hlt)
    have hshort : ¬ ((UInt16.ofNat n).toNat < 60 ∧ rest = []) := by
      rw [UInt16.toNat_ofNat']
      omega
    simp only [ok_bind, if_neg hshort, if_pos hbig]
    exact ⟨_, rfl⟩

/-- The header section and the body, as far as they are there, have nothing wrong in them. -/
def SectionStands (names : List Bytes) (t : Bytes) : Prop :=
  TailAwaits names t ∨ ∃ ls : List (HeaderLine names), Distinct (headersOf ls) ∧
    ((∃ c, t = linesText ls ++ [c]) ∨ ∃ eol body, t = linesText ls ++ (eol ++ body) ∧
      TailEnd eol body ∧ BodyFits (headersOf ls) body)

theorem parseTail_incorrect_iff (ht : TableOk names) (t : Bytes) :
    (∃ w, parseTail names t = .error (.incorrectData w)) ↔ ¬ SectionStands names t := by
  refine ⟨?_, fun h => ?_⟩
  · rintro ⟨w, hw⟩ (hcut | ⟨ls, hd, ⟨c, rfl⟩ | ⟨eol, body, rfl, hend, hfits⟩⟩)
    · rw [← parseTail_awaiting ht, hw] at hcut
      exact not_awaiting_incorrect w hcut
    · rw [parseTail_cut ht hd] at hw
      cases hw
    · rw [parseTail_lines ht hd hend hfits] at hw
      cases hw
  · rcases parseTail_cases ht t with ⟨w, hw | hw⟩ | ⟨ls, eol, body, hs, hd, hend, hfits⟩ |
      ⟨ls, c, hs, hd⟩
    · exact ⟨w, hw⟩
    · exact absurd (.inl ((parseTail_awaiting ht t).mp ⟨w, hw⟩)) h
    · exact absurd (.inr ⟨ls, hd, .inr ⟨eol, body, hs, hend, hfits⟩⟩) h
    · exact absurd (.inr ⟨ls, hd, .inl ⟨c, hs⟩⟩) h

/-- The rest of the status line is still open, or nothing behind it is wrong. -/
def RestStands (rest : Bytes) : Prop :=
  ¬ CRLF <:+: rest ∨ ∃ text t, leftStrip rest = text ++ (CRLF ++ t) ∧ ¬ CRLF <:+: text ∧
    SectionStands RESPONCE_HEADER_NAMES t

/-- What is accepted has the code its token denotes, and no other token is let through. -/
def StatusMeant (s token : Bytes) : Prop :=
  (∀ q, Responce.parse s = .ok q → StatusNumeral token ∧ q.code.toNat = Numeral.value token) ∧
    (¬ StatusNumeral token → ∃ w, Responce.parse s = .error (.incorrectData w))

theorem StatusText.code {s token rest : Bytes} {q : Responce} (h : StatusText s token rest)
    (hq : Responce.parse s = .ok q) : ∃ n, stoul token = some n ∧ q.code = UInt16.ofNat n := by
  obtain ⟨version, gap, hparse, hgap⟩ := h.parse_eq
  rw [hparse, Responce.parseCode, readToken_append hgap h.2.1, ok_bind] at hq
  cases hs : stoul token with
  | none =>
    simp only [codeOfToken, hs, error_bind, reduceCtorEq] at hq
  | some n =>
    refine ⟨n, rfl, ?_⟩
    simp only [codeOfToken, hs, ok_bind, throw_eq_error, error_bind, ite_error_eq_ok] at hq
    obtain ⟨-, -, -, hq⟩ := hq
    obtain ⟨text, -, hq⟩ := bind_eq_ok.mp hq
    obtain ⟨sv, -, hq⟩ := bind_eq_ok.mp hq
    obtain ⟨t, -, hq⟩ := bind_eq_ok.mp hq
    exact congrArg Responce.code (Except.ok.inj hq).symm

/-- A token that leaves a code is refused only for what is wrong behind the status line. -/
theorem StatusText.refused_iff {s token rest : Bytes} {n : ℕ} (h : StatusText s token rest)
    (hn : stoul token = some n) (hle : n % 2 ^ 16 ≤ NetworkConnectTimeoutError.toNat) :
    (∃ w, Responce.parse s = .error (.incorrectData w)) ↔ ¬ RestStands rest := by
  obtain ⟨hne, ht, lead, p, gap, rfl, hb, hgap, hstart⟩ := h
  by_cases hcr : CRLF <:+: rest
  · have hopen : RestStands rest ↔ ∃ text t, leftStrip rest = text ++ (CRLF ++ t) ∧
        ¬ CRLF <:+: text ∧ SectionStands RESPONCE_HEADER_NAMES t := by
      simp [RestStands, hcr]
    obtain ⟨b, hrest, hb', -⟩ := leftStrip_spec rest
    rw [hrest, crlf_infix_append (blank_CR_not_mem hb')] at hcr
    obtain ⟨m, hfind⟩ : ∃ m, Search.find CRLF (leftStrip rest) = some m :=
      Option.ne_none_iff_exists'.mp (mt (Search.find_eq_none_iff _ _).mp (not_not.mpr hcr))
    obtain ⟨text, sv, htext, -, hno⟩ := find_crlf_some hfind
    obtain ⟨l, hl, -⟩ := ResponceLine.exists_full (p := p) hb hgap hstart hne ht hn
      ((ofNat_le_iff n).mpr hle) htext hno
    rw [hl, Responce.parse_line, hopen]
    have htail := parseTail_incorrect_iff responce_table_ok sv
    refine ⟨?_, fun hbad => ?_⟩
    · rintro ⟨w, hw⟩ ⟨text', sv', htext', hno', hstands⟩
      rw [htext] at htext'
      obtain ⟨-, rfl⟩ := Search.pair_cut_unique (by decide) hno hno' htext'
      rw [bind_eq_error] at hw
      exact htail.mp ⟨w, hw.resolve_right (by simp)⟩ hstands
    · obtain ⟨w, hw⟩ := htail.mpr fun hs => hbad ⟨text, sv, htext, hno, hs⟩
      exact ⟨w, by rw [hw, error_bind]⟩
  · obtain ⟨v, hv⟩ := (StatusAwaits.line lead p gap token rest n hb hgap hstart ht hn
      ((ofNat_le_iff n).mpr hle) hcr).awaiting
    refine ⟨fun ⟨w, hw⟩ => ?_, fun hbad => absurd (.inl hcr) hbad⟩
    rw [hw] at hv
    cases hv

theorem statusMeant_iff {s token rest : Bytes} (h : StatusText s token rest) :
    StatusMeant s token ↔ ¬ (Aliased token ∧ RestStands rest) := by
  refine ⟨?_, fun hcond => ⟨fun q hq => ?_, fun hbad => ?_⟩⟩
  · rintro ⟨-, hrefused⟩ ⟨⟨hbad, n, hn, hle⟩, hstands⟩
    exact (h.refused_iff hn hle).mp (hrefused hbad) hstands
  · obtain ⟨n, hn, hcode⟩ := h.code hq
    have hle : n % 2 ^ 16 ≤ NetworkConnectTimeoutError.toNat := by
      by_contra hlt
      obtain ⟨w, hw⟩ := h.refused fun m hm => by
        obtain rfl : n = m := Option.some.inj (hn.symm.trans hm)
        exact not_le.mp hlt
      rw [hq] at hw
      cases hw
    have hgood : StatusNumeral token := by
      by_contra hbad
      obtain ⟨w, hw⟩ := (h.refused_iff hn hle).mpr fun hs => hcond ⟨⟨hbad, n, hn, hle⟩, hs⟩
      rw [hq] at hw
      cases hw
    obtain rfl : n = Numeral.value token := Option.some.inj (hn.symm.trans hgood.stoul.1)
    exact ⟨hgood, hcode ▸ hgood.stoul.2⟩
  · by_cases halias : Aliased token
    · obtain ⟨n, hn, hle⟩ := halias.2
      exact (h.refused_iff hn hle).mpr fun hs => hcond ⟨halias, hs⟩
    · exact h.refused fun n hn => not_le.mp fun hle => halias ⟨hbad, n, hn, hle⟩

/-- The status code is the one that was sent exactly when the token is a numeral up to 599, or
leaves no such number in 16 bits, or something else in the message is wrong. -/
theorem status_meant_iff (s : Bytes) :
    (∀ q, Responce.parse s = .ok q → ∃ token rest, StatusText s token rest) ∧
    ∀ token rest, StatusText s token rest →
      (StatusMeant s token ↔ ¬ (Aliased token ∧ RestStands rest)) := by
  refine ⟨fun q h => ?_, fun token rest h => statusMeant_iff h⟩
  obtain ⟨l, t, rfl⟩ := Responce.parse_ok_line h
  have hstop : ∀ c ∈ (l.gap₂ ++ l.text ++ (CRLF ++ t)).head?, endsToken c = true :=
    head_append_crlf _ endsToken l.start_gap₂ endsToken_CR
  exact ⟨l.token, l.gap₂ ++ l.text ++ (CRLF ++ t), l.token_ne, l.token_isToken hstop, l.lead,
    l.proto, l.gap₁, by simp [ResponceLine.full], l.blank_lead, l.blank_gap₁, l.start_gap₁⟩

theorem statusText_http (token : Bytes) {r : Bytes} (hne : token ≠ [])
    (ht : IsToken token r) :
    StatusText (Protocol.http.text ++ ([SP] ++ token ++ r)) token r :=
  ⟨hne, ht, [], Protocol.http, [SP], rfl, blank_nil, by simp [Blank, SP, isSpace], rfl⟩

theorem status_meant_hello :
    (∃ token rest, StatusText (lit "HTTP/1.1 404 Not Found\r\n\r\n") token rest) ∧
      StatusMeant (lit "HTTP/1.1 404 Not Found\r\n\r\n") (lit "404") := by
  have h404 := statusText_http (lit "404") (r := lit " Not Found\r\n\r\n") (by decide)
    ⟨by decide, by decide, by decide⟩
  exact ⟨(status_meant_iff _).1 ⟨lit "1.1", 404, lit "Not Found", [], []⟩ rfl,
    ((status_meant_iff _).2 _ _ h404).mpr fun h => h.1.1 ⟨by decide, by decide⟩⟩

/-- 65736 is read as 200. -/
theorem alias_accepted :
    StatusText (lit "HTTP/1.1 65736 OK\r\n\r\n") (lit "65736") (lit " OK\r\n\r\n") ∧
      Responce.parse (lit "HTTP/1.1 65736 OK\r\n\r\n") =
        .ok ⟨lit "1.1", 200, lit "OK", [], []⟩ ∧
      ¬ StatusMeant (lit "HTTP/1.1 65736 OK\r\n\r\n") (lit "65736") := by
  have hparse : Responce.parse (lit "HTTP/1.1 65736 OK\r\n\r\n") =
      .ok ⟨lit "1.1", 200, lit "OK", [], []⟩ := rfl
  refine ⟨statusText_http (lit "65736") (by decide) ⟨by decide, by decide, by decide⟩, hparse, ?_⟩
  rintro ⟨hmeant, -⟩
  have h : StatusNumeral (lit "65736") := (hmeant _ hparse).1
  exact absurd h.2 (by decide)

end Sphere.Http
