import Sphere.Http.Headers

/-! The start lines and, with the header section, the whole messages. The parser
matches the method, the word `HTTP/` and the version by common prefix, so each of
them may be cut short when more input follows; `Protocol`, `RequestLine` and
`ResponceLine` describe exactly what is let through. -/

namespace Sphere.Http

open Lib

/-- The protocol token: a part of `HTTP/` and a part of a version. -/
structure Protocol where
  word : Bytes
  version : Bytes
  word_ne : word ≠ []
  word_prefix : word <+: lit "HTTP/"
  version_ne : version ≠ []
  version_prefix : ∃ v ∈ VERSIONS, version <+: v

def Protocol.text (p : Protocol) : Bytes := p.word ++ p.version

theorem VERSIONS_clean :
    ∀ v ∈ VERSIONS, v.length = 3 ∧ ∀ c ∈ v, endsToken c = false ∧ c ∉ lit "HTTP/" := by
  decide

theorem HTTP_clean : ∀ c ∈ lit "HTTP/", endsToken c = false ∧ isSpace c = false := by
  decide

namespace Protocol

theorem version_length (p : Protocol) : p.version.length ≤ 3 := by
  obtain ⟨v, hv, hp⟩ := p.version_prefix
  exact (VERSIONS_clean v hv).1 ▸ hp.length_le

theorem version_clean (p : Protocol) {c : UInt8} (hc : c ∈ p.version) :
    endsToken c = false ∧ c ∉ lit "HTTP/" := by
  obtain ⟨v, hv, hp⟩ := p.version_prefix
  exact (VERSIONS_clean v hv).2 c (hp.subset hc)

theorem isToken (p : Protocol) {rest : Bytes} (hstop : ∀ c ∈ rest.head?, endsToken c = true) :
    IsToken p.text rest := by
  refine ⟨fun c hc => ?_, fun c hc => ?_, hstop⟩
  · rcases List.mem_append.mp hc with h | h
    · exact (HTTP_clean c (p.word_prefix.subset h)).1
    · exact (p.version_clean h).1
  · obtain ⟨d, word, hw⟩ := List.exists_cons_of_ne_nil p.word_ne
    have hd : d ∈ lit "HTTP/" := p.word_prefix.subset (by simp [hw])
    obtain rfl : d = c := by simpa [text, hw] using hc
    exact (HTTP_clean d hd).2

theorem mismatch_text (p : Protocol) : mismatch (lit "HTTP/") p.text = p.word.length := by
  obtain ⟨a, ha⟩ := p.word_prefix
  rw [← ha, text, mismatch_append]
  intro c hc d hd hcd
  have h1 : c ∈ lit "HTTP/" := ha ▸ List.mem_append_right _ (List.mem_of_mem_head? hc)
  exact (p.version_clean (List.mem_of_mem_head? hd)).2 (hcd ▸ h1)

end Protocol

theorem parseProtocol_append {b rest : Bytes} (hb : Blank b) (p : Protocol)
    (hstop : ∀ c ∈ rest.head?, endsToken c = true) (hne : rest ≠ []) :
    parseProtocol (b ++ p.text ++ rest) = .ok (p.version, rest) := by
  obtain ⟨v, hv, hp⟩ := p.version_prefix
  have hword : p.word.length ≠ 0 := fun h => p.word_ne (List.length_eq_zero_iff.mp h)
  have hrest : removePrefix p.word.length p.text = .ok p.version := by
    simp [removePrefix, Protocol.text]
  have hlen : ¬ 3 < p.version.length := by
    have := p.version_length
    omega
  simp only [parseProtocol, readToken_append hb (p.isToken hstop), ok_bind,
    expecting_of_ne_nil hne, p.mismatch_text, if_neg hword, hrest, if_neg p.version_ne, if_neg hlen,
    expectingToFindInRange_of_prefix hne hv hp, pure_eq_ok]

theorem ite_error_eq_ok {α : Type} {c : Prop} [Decidable c] {e : Stop} {x : Parse α} {a : α} :
    (if c then .error e else x) = .ok a ↔ ¬ c ∧ x = .ok a := by
  by_cases h : c <;> simp [h]

theorem Safe.ite_incorrect {α : Type} {c : Prop} [Decidable c] {x : Parse α} {w : Bytes}
    (hx : Safe x) : Safe (if c then .error (.incorrectData w) else x) := by
  by_cases h : c <;> simp [h, hx]

theorem Safe.ite_expecting {α : Type} {c : Prop} [Decidable c] {x : Parse α} {w : Bytes}
    (hx : Safe x) : Safe (if c then .error (.expectingData w) else x) := by
  by_cases h : c <;> simp [h, hx]

theorem parseProtocol_safe (sv : Bytes) : Safe (parseProtocol sv) := by
  obtain ⟨b, token, rest, rfl, hb, ht, hread⟩ := readToken_spec sv
  simp only [parseProtocol, hread, ok_bind]
  refine (expecting_safe _ _ _ _).bind fun cur hcur => ?_
  have hle : cur ≤ token.length := expecting_ok hcur ▸ mismatch_le_right _ _
  simp only [removePrefix, if_pos hle, ok_bind, throw_eq_error, error_bind]
  refine .ite_incorrect (.ite_expecting (.ite_incorrect ?_))
  exact (expectingToFindInRange_safe _ _ _ _).bind fun _ _ => safe_ok _

theorem parseProtocol_ok {sv rest version : Bytes} (h : parseProtocol sv = .ok (version, rest)) :
    ∃ (b : Bytes) (p : Protocol), sv = b ++ p.text ++ rest ∧ Blank b ∧ p.version = version ∧
      ∀ c ∈ rest.head?, endsToken c = true := by
  obtain ⟨b, token, rest', rfl, hb, ht, hread⟩ := readToken_spec sv
  simp only [parseProtocol, hread, ok_bind] at h
  obtain ⟨cur, hcur, h⟩ := bind_eq_ok.mp h
  obtain rfl := expecting_ok hcur
  have hle := mismatch_le_right (lit "HTTP/") token
  simp only [throw_eq_error, error_bind, removePrefix, if_pos hle, ok_bind, ite_error_eq_ok] at h
  obtain ⟨hcur0, hne, -, h⟩ := h
  obtain ⟨u, hu, h⟩ := bind_eq_ok.mp h
  obtain ⟨rfl, rfl⟩ : token.drop (mismatch (lit "HTTP/") token) = version ∧ rest' = rest := by
    simpa using h
  have hword : token.take (mismatch (lit "HTTP/") token) ≠ [] := by
    intro h0
    have := congrArg List.length h0
    rw [List.length_take, Nat.min_eq_left hle] at this
    exact hcur0 this
  refine ⟨b, ⟨token.take (mismatch (lit "HTTP/") token), _, hword, take_mismatch_prefix _ _, hne,
    expectingToFindInRange_ok hu⟩, ?_, hb, rfl, ht.stop⟩
  simp [Protocol.text]

theorem METHODS_antichain : Antichain METHODS := by
  unfold Antichain
  decide

theorem VERSIONS_antichain : Antichain VERSIONS := by
  unfold Antichain
  decide

/-- The protocol token ends within its word, or at the end of the text within its version. -/
def ProtocolAwaits (token rest : Bytes) : Prop :=
  token ≠ [] ∧ token <+: lit "HTTP/" ∨
    rest = [] ∧ ∃ p : Protocol, token = p.text ∧ p.version ∉ VERSIONS

theorem ProtocolAwaits.ne_nil {token rest : Bytes} (h : ProtocolAwaits token rest) :
    token ≠ [] := by
  obtain ⟨h, -⟩ | ⟨-, p, rfl, -⟩ := h
  · exact h
  · exact fun hn => p.word_ne (List.append_eq_nil_iff.mp hn).1

/-- What follows the word of the protocol token. -/
theorem versionAwaits_iff (token rest : Bytes) : ProtocolAwaits token rest ↔
    mismatch (lit "HTTP/") token ≠ 0 ∧
      (token.drop (mismatch (lit "HTTP/") token) = [] ∨
        ¬ 3 < (token.drop (mismatch (lit "HTTP/") token)).length ∧
        Awaiting (expectingToFindInRange VERSIONS (token.drop (mismatch (lit "HTTP/") token)) rest
          (lit "Request version"))) := by
  have hle := mismatch_le_right (lit "HTTP/") token
  rw [expectingToFindInRange_awaiting VERSIONS_antichain]
  refine ⟨?_, ?_⟩
  · rintro (⟨hne, hp⟩ | ⟨rfl, p, rfl, hv⟩)
    · rw [(mismatch_eq_length_iff _ _).mpr hp]
      exact ⟨by simpa using hne, .inl (List.drop_length ..)⟩
    · have hdrop : p.text.drop p.word.length = p.version := List.drop_left
      rw [p.mismatch_text, hdrop]
      exact ⟨fun h => p.word_ne (List.length_eq_zero_iff.mp h), .inr ⟨not_lt.mpr p.version_length,
        rfl, p.version_ne, hv, p.version_prefix⟩⟩
  · rintro ⟨hm, hnil | ⟨-, rfl, hne, hv, hprefix⟩⟩
    · have hlen : mismatch (lit "HTTP/") token = token.length :=
        le_antisymm hle (List.drop_eq_nil_iff.mp hnil)
      refine .inl ⟨?_, (mismatch_eq_length_iff _ _).mp hlen⟩
      rintro rfl
      exact hm hlen
    · have hword : token.take (mismatch (lit "HTTP/") token) ≠ [] := by
        intro h0
        have hlen := congrArg List.length h0
        rw [List.length_take, Nat.min_eq_left hle] at hlen
        exact hm hlen
      exact .inr ⟨rfl, ⟨_, _, hword, take_mismatch_prefix _ _, hne, hprefix⟩,
        (List.take_append_drop _ _).symm, hv⟩

theorem parseProtocol_awaiting {b token rest : Bytes} (hb : Blank b) (ht : IsToken token rest) :
    Awaiting (parseProtocol (b ++ token ++ rest)) ↔ ProtocolAwaits token rest := by
  have hle := mismatch_le_right (lit "HTTP/") token
  simp only [parseProtocol, readToken_append hb ht, ok_bind]
  by_cases hc : token ≠ [] ∧ token <+: lit "HTTP/" ∧ token ≠ lit "HTTP/" ∧ rest = []
  · rw [expecting_eq, if_pos hc, error_bind]
    exact ⟨fun _ => .inl ⟨hc.1, hc.2.1⟩, fun _ => awaiting_expecting _⟩
  · rw [expecting_eq, if_neg hc, versionAwaits_iff]
    simp only [ok_bind, removePrefix, if_pos hle, throw_eq_error, error_bind]
    split_ifs with hm hnil hlong
    · simp [hm]
    · simp [hm, hnil]
    · simp only [hnil, hlong, not_awaiting_incorrect, not_true_eq_false, false_and, or_self,
        and_false]
    · rw [awaiting_bind]
      simp only [hm, hnil, hlong, pure_eq_ok, not_awaiting_ok, and_false, exists_false, or_false,
        ne_eq, not_false_eq_true, true_and, false_or]

/-! The request line. -/

structure RequestLine where
  lead : Bytes
  method : Bytes
  gap₁ : Bytes
  target : Bytes
  gap₂ : Bytes
  proto : Protocol
  gap₃ : Bytes
  blank_lead : Blank lead
  blank_gap₁ : Blank gap₁
  blank_gap₂ : Blank gap₂
  blank_gap₃ : Blank gap₃
  start_gap₁ : gap₁.head? = some SP
  start_gap₂ : gap₂.head? = some SP
  start_gap₃ : ∀ c ∈ gap₃.head?, c = SP
  method_ne : method ≠ []
  method_prefix : ∃ m ∈ METHODS, method <+: m
  target_ne : target ≠ []
  target_clean : ∀ c ∈ target, endsToken c = false
  target_start : ∀ c ∈ target.head?, isSpace c = false

theorem METHODS_clean : ∀ m ∈ METHODS, ∀ c ∈ m, endsToken c = false ∧ isSpace c = false := by
  decide

namespace RequestLine

/-- Up to the target; the protocol is still to come. -/
def front (l : RequestLine) : Bytes := l.lead ++ l.method ++ (l.gap₁ ++ l.target)

def text (l : RequestLine) : Bytes :=
  l.lead ++ l.method ++ (l.gap₁ ++ l.target ++ (l.gap₂ ++ l.proto.text ++ l.gap₃))

def request (l : RequestLine) (headers : List Header) (body : Bytes) : Request :=
  ⟨l.method, l.target, l.proto.version, headers, body⟩

theorem method_clean (l : RequestLine) {c : UInt8} (hc : c ∈ l.method) :
    endsToken c = false ∧ isSpace c = false := by
  obtain ⟨m, hm, hp⟩ := l.method_prefix
  exact METHODS_clean m hm c (hp.subset hc)

theorem gap₁_ne (l : RequestLine) : l.gap₁ ≠ [] := fun h => by
  simpa [h] using l.start_gap₁

theorem gap₂_ne (l : RequestLine) : l.gap₂ ≠ [] := fun h => by
  simpa [h] using l.start_gap₂

theorem method_token (l : RequestLine) (rest : Bytes) : IsToken l.method (l.gap₁ ++ rest) := by
  refine ⟨fun c hc => (l.method_clean hc).1, fun c hc => ?_, fun c hc => ?_⟩
  · rw [List.head?_append_of_ne_nil _ l.method_ne] at hc
    exact (l.method_clean (List.mem_of_mem_head? hc)).2
  · rw [List.head?_append_of_ne_nil _ l.gap₁_ne, l.start_gap₁] at hc
    obtain rfl : SP = c := by simpa using hc
    decide

theorem target_token (l : RequestLine) {rest : Bytes}
    (hstop : ∀ c ∈ rest.head?, endsToken c = true) : IsToken l.target rest := by
  refine ⟨l.target_clean, fun c hc => ?_, hstop⟩
  rw [List.head?_append_of_ne_nil _ l.target_ne] at hc
  exact l.target_start c hc

end RequestLine

/-- `Request::parse` from the end of the start line on. -/
def Request.parseEnd (method target version sv : Bytes) : Parse Request := do
  let cur ← expecting CRLF (sv.take 2) sv []
  if cur = 0 then throw (.incorrectData (lit "Start line"))
  let sv ← removePrefix 2 sv
  let (headers, body) ← parseTail REQUEST_HEADER_NAMES sv
  return { method, target, version, headers, body }

theorem Request.parse_eq (req : Bytes) : Request.parse req = (do
    let (method, sv) ← readToken req
    expectingToFindInRange METHODS method sv []
    let (target, sv) ← readToken sv
    let (version, sv) ← parseProtocol sv
    Request.parseEnd method target version (leftStrip sv)) := by
  simp only [Request.parse, Request.parseEnd, parseTail, bind_assoc, pure_bind]

theorem endsToken_CR : endsToken CR = true := by decide

theorem isSpace_CR : isSpace CR = false := by decide

theorem eq_SP_of_space_of_ends {c : UInt8} (h1 : isSpace c = true) (h2 : endsToken c = true) :
    c = SP := by
  simp only [isSpace, endsToken, Bool.or_eq_true, decide_eq_true_eq] at h1 h2
  rcases h2 with h | h
  · exact h
  · rw [h] at h1
    exact absurd h1 (by decide)

/-- Blanks between two tokens start with a space, since the first token ended there. -/
theorem head_gap {b : Bytes} (token rest : Bytes) (hb : Blank b) (hne : token ≠ [])
    (hclean : ∀ c ∈ token, endsToken c = false)
    (hstop : ∀ c ∈ (b ++ token ++ rest).head?, endsToken c = true) : b.head? = some SP := by
  cases b with
  | nil =>
    obtain ⟨c, t, rfl⟩ := List.exists_cons_of_ne_nil hne
    have h1 := hstop c (by simp)
    rw [hclean c (by simp)] at h1
    cases h1
  | cons c b =>
    rw [List.head?_cons, eq_SP_of_space_of_ends (hb c (by simp)) (hstop c (by simp))]

/-- What comes behind the blanks of a request line ends the token before them. -/
theorem RequestLine.stop_gap₂ (l : RequestLine) (rest : Bytes) :
    ∀ c ∈ (l.gap₂ ++ rest).head?, endsToken c = true := by
  intro c hc
  rw [List.head?_append_of_ne_nil _ l.gap₂_ne, l.start_gap₂] at hc
  obtain rfl : SP = c := by simpa using hc
  rfl

theorem RequestLine.stop_gap₃ (l : RequestLine) {r : Bytes} (hr : r.head? = some CR) :
    ∀ c ∈ (l.gap₃ ++ r).head?, endsToken c = true := by
  intro c hc
  rw [List.head?_append, hr] at hc
  cases hg : l.gap₃.head? with
  | none =>
    obtain rfl : CR = c := by simpa [hg] using hc
    exact endsToken_CR
  | some d =>
    obtain rfl : d = c := by simpa [hg] using hc
    rw [l.start_gap₃ d (by simp [hg])]
    rfl

theorem RequestLine.strip_gap₃ (l : RequestLine) {r : Bytes} (hr : r.head? = some CR) :
    leftStrip (l.gap₃ ++ r) = r := by
  apply leftStrip_append l.blank_gap₃
  intro c hc
  obtain rfl : CR = c := by simpa [hr] using hc
  exact isSpace_CR

/-- What comes before the protocol has been let through. -/
theorem Request.parse_front (l : RequestLine) {r : Bytes}
    (hstop : ∀ c ∈ r.head?, endsToken c = true) :
    Request.parse (l.front ++ r) =
      (parseProtocol r >>= fun v =>
        Request.parseEnd l.method l.target v.1 (leftStrip v.2)) := by
  obtain ⟨m, hm, hp⟩ := l.method_prefix
  have hne : l.gap₁ ++ (l.target ++ r) ≠ [] :=
    fun h => l.gap₁_ne (List.append_eq_nil_iff.mp h).1
  have hsplit : l.front ++ r = l.lead ++ l.method ++ (l.gap₁ ++ (l.target ++ r)) := by
    simp [RequestLine.front]
  rw [Request.parse_eq, hsplit]
  simp only [readToken_append l.blank_lead (l.method_token _), ok_bind,
    expectingToFindInRange_of_prefix hne hm hp]
  rw [← List.append_assoc l.gap₁, readToken_append l.blank_gap₁ (l.target_token hstop)]
  rfl

theorem Request.parse_line (l : RequestLine) {r : Bytes} (hr : r.head? = some CR) :
    Request.parse (l.text ++ r) = Request.parseEnd l.method l.target l.proto.version r := by
  have hne : l.gap₃ ++ r ≠ [] := fun h => by
    simp [(List.append_eq_nil_iff.mp h).2] at hr
  have hsplit : l.text ++ r = l.front ++ (l.gap₂ ++ (l.proto.text ++ (l.gap₃ ++ r))) := by
    simp [RequestLine.text, RequestLine.front]
  rw [hsplit, Request.parse_front l (l.stop_gap₂ _), ← List.append_assoc l.gap₂,
    parseProtocol_append l.blank_gap₂ l.proto (l.stop_gap₃ hr) hne]
  simp only [ok_bind, l.strip_gap₃ hr]

/-- The tokens in front of a carriage return, one read after the other. -/
theorem RequestLine.reads (l : RequestLine) {r : Bytes} (hr : r.head? = some CR) :
    ∃ r₀ r₁ r₂, readToken (l.text ++ r) = .ok (l.method, r₀) ∧
      readToken r₀ = .ok (l.target, r₁) ∧ readToken r₁ = .ok (l.proto.text, r₂) ∧
        leftStrip r₂ = r := by
  have htarget := readToken_append l.blank_gap₁
    (l.target_token (l.stop_gap₂ (l.proto.text ++ (l.gap₃ ++ r))))
  have hproto := readToken_append l.blank_gap₂ (l.proto.isToken (l.stop_gap₃ hr))
  have hmethod := readToken_append l.blank_lead
    (l.method_token (l.target ++ (l.gap₂ ++ (l.proto.text ++ (l.gap₃ ++ r)))))
  have hsplit : l.text ++ r = l.lead ++ l.method ++
      (l.gap₁ ++ (l.target ++ (l.gap₂ ++ (l.proto.text ++ (l.gap₃ ++ r))))) := by
    simp [RequestLine.text]
  rw [List.append_assoc] at htarget hproto
  rw [← hsplit] at hmethod
  exact ⟨_, _, _, hmethod, htarget, hproto, l.strip_gap₃ hr⟩

theorem parseProtocol_nil {rest : Bytes} (h : IsToken [] rest) :
    parseProtocol rest = .error (.incorrectData (lit "Request protocol")) := by
  simp only [parseProtocol, readToken_nil_again h, ok_bind]
  rw [expecting_eq, if_neg (by simp), ok_bind]
  rfl

theorem Request.parseEnd_not_CR {method target version sv : Bytes} (h : sv.head? ≠ some CR) :
    Request.parseEnd method target version sv =
      .error (.incorrectData (lit "Start line")) := by
  have hm : mismatch CRLF (sv.take 2) = 0 := by
    cases sv with
    | nil => rfl
    | cons c sv =>
      have hc : ¬ CR = c := fun hc => h (by simp [hc])
      simp [mismatch, CRLF, hc]
  have hp : ¬ (sv.take 2 ≠ [] ∧ sv.take 2 <+: CRLF ∧ sv.take 2 ≠ CRLF ∧ sv = []) := by
    rintro ⟨h1, -, -, rfl⟩
    exact h1 rfl
  rw [Request.parseEnd, expecting_eq, if_neg hp, hm]
  rfl

/-- The parts in front of a token; the protocol is any. -/
theorem RequestLine.exists_front {b₀ method b₁ target b₂ token r : Bytes} (hb₀ : Blank b₀)
    (hb₁ : Blank b₁) (hb₂ : Blank b₂) (hmethod : method ≠ [])
    (hp : ∃ m ∈ METHODS, method <+: m) (ht₀ : IsToken method (b₁ ++ target ++ (b₂ ++ token ++ r)))
    (htarget : target ≠ []) (ht₁ : IsToken target (b₂ ++ token ++ r)) (hne : token ≠ [])
    (ht₂ : IsToken token r) (p : Protocol) :
    ∃ l : RequestLine, l.front = b₀ ++ method ++ (b₁ ++ target) ∧ l.gap₂ = b₂ ∧ l.proto = p ∧
      l.gap₃ = [] := by
  have hg₁ : b₁.head? = some SP := head_gap _ _ hb₁ htarget ht₁.inside ht₀.stop
  have hg₂ : b₂.head? = some SP := head_gap _ _ hb₂ hne ht₂.inside ht₁.stop
  refine ⟨⟨b₀, method, b₁, target, b₂, p, [], hb₀, hb₁, hb₂, by simp [Blank], hg₁, hg₂, by simp,
    hmethod, hp, htarget, ht₁.inside, fun c hc => ?_⟩, rfl, rfl, rfl, rfl⟩
  apply ht₁.start c
  rw [List.head?_append, hc]
  rfl

/-- The blanks behind the protocol. -/
theorem RequestLine.exists_text (l : RequestLine) {r : Bytes}
    (hstop : ∀ c ∈ r.head?, endsToken c = true) :
    ∃ l' : RequestLine, l.front ++ (l.gap₂ ++ l.proto.text ++ r) = l'.text ++ leftStrip r := by
  obtain ⟨b₃, hr, hb₃, -⟩ := leftStrip_spec r
  have hg₃ : ∀ c ∈ b₃.head?, c = SP := by
    intro c hc
    apply eq_SP_of_space_of_ends (hb₃ c (List.mem_of_mem_head? hc))
    apply hstop c
    rw [hr, List.head?_append, hc]
    rfl
  refine ⟨{ l with gap₃ := b₃, blank_gap₃ := hb₃, start_gap₃ := hg₃ }, ?_⟩
  simp only [RequestLine.front, RequestLine.text, List.append_assoc]
  rw [← hr]

/-- Some protocol, where a line has none yet. -/
def Protocol.http : Protocol :=
  ⟨lit "HTTP/", lit "1.1", by decide, by decide, by decide, lit "1.1", by decide, by decide⟩

/-- The method is cut, or the protocol token is, behind a method and a target. -/
inductive StartAwaits : Bytes → Prop
  | method (lead token : Bytes) (hb : Blank lead) (hne : token ≠ []) (hnew : token ∉ METHODS)
      (hp : ∃ m ∈ METHODS, token <+: m) : StartAwaits (lead ++ token)
  | proto (l : RequestLine) (token rest : Bytes) (ht : IsToken token rest)
      (h : ProtocolAwaits token rest) : StartAwaits (l.front ++ (l.gap₂ ++ token ++ rest))

theorem StartAwaits.awaiting {s : Bytes} (h : StartAwaits s) : Awaiting (Request.parse s) := by
  cases h with
  | method lead token hb hne hnew hp =>
    obtain ⟨m, hm, hpm⟩ := hp
    have hclean : ∀ c ∈ token, endsToken c = false ∧ isSpace c = false :=
      fun c hc => METHODS_clean m hm c (hpm.subset hc)
    have ht : IsToken token [] := by
      refine ⟨fun c hc => (hclean c hc).1, fun c hc => ?_, nofun⟩
      rw [List.append_nil] at hc
      exact (hclean c (List.mem_of_mem_head? hc)).2
    rw [Request.parse_eq, ← List.append_nil (lead ++ token), readToken_append hb ht]
    simp only [ok_bind]
    exact awaiting_bind.mpr (.inl ((expectingToFindInRange_awaiting METHODS_antichain ..).mpr
      ⟨rfl, hne, hnew, m, hm, hpm⟩))
  | proto l token rest ht hawaits =>
    rw [List.append_assoc l.gap₂, Request.parse_front l (l.stop_gap₂ _),
      ← List.append_assoc l.gap₂, awaiting_bind, parseProtocol_awaiting l.blank_gap₂ ht]
    exact .inl hawaits

/-- A request is rejected, or cut in its start line, or it has a request line with a carriage
return behind it. -/
theorem Request.parse_start_cases (s : Bytes) :
    (∃ w, Request.parse s = .error (.incorrectData w)) ∨ StartAwaits s ∨
      ∃ (l : RequestLine) (r : Bytes), s = l.text ++ r ∧ r.head? = some CR := by
  rw [Request.parse_eq]
  obtain ⟨b₀, method, r₀, hs, hb₀, ht₀, hread₀⟩ := readToken_spec s
  simp only [hread₀, ok_bind]
  by_cases hawaits : Awaiting (expectingToFindInRange METHODS method r₀ [])
  · obtain ⟨rfl, hne, hnew, hp⟩ :=
      (expectingToFindInRange_awaiting METHODS_antichain ..).mp hawaits
    rw [hs, List.append_nil]
    exact .inr (.inl (.method b₀ method hb₀ hne hnew hp))
  rcases (expectingToFindInRange_safe METHODS method r₀ []).cases with ⟨w, hw | hw⟩ | ⟨u, hu⟩
  · exact .inl ⟨w, by rw [hw]; rfl⟩
  · exact absurd ⟨w, hw⟩ hawaits
  simp only [hu, ok_bind]
  obtain ⟨b₁, target, r₁, rfl, hb₁, ht₁, hread₁⟩ := readToken_spec r₀
  simp only [hread₁, ok_bind]
  by_cases htarget : target = []
  · subst htarget
    exact .inl ⟨_, by rw [parseProtocol_nil ht₁]; rfl⟩
  by_cases hmethod : method = []
  · -- an empty method token leaves nothing for the target either
    subst hmethod
    rw [readToken_nil_again ht₀] at hread₁
    obtain ⟨rfl, -⟩ : [] = target ∧ _ := by simpa using hread₁
    exact absurd rfl htarget
  have hmprefix := expectingToFindInRange_ok hu
  by_cases hproto : Awaiting (parseProtocol r₁)
  · obtain ⟨b₂, token, r₂, rfl, hb₂, ht₂, -⟩ := readToken_spec r₁
    have hcut := (parseProtocol_awaiting hb₂ ht₂).mp hproto
    obtain ⟨l, hfront, hgap, -⟩ := RequestLine.exists_front hb₀ hb₁ hb₂ hmethod hmprefix ht₀
      htarget ht₁ hcut.ne_nil ht₂ .http
    refine .inr (.inl ?_)
    have hsplit : s = l.front ++ (l.gap₂ ++ token ++ r₂) := by
      rw [hfront, hgap, hs]
      simp only [List.append_assoc]
    rw [hsplit]
    exact .proto l token r₂ ht₂ hcut
  rcases (parseProtocol_safe r₁).cases with ⟨w, hw | hw⟩ | ⟨⟨version, r₂⟩, hok⟩
  · exact .inl ⟨w, by rw [hw]; rfl⟩
  · exact absurd ⟨w, hw⟩ hproto
  simp only [hok, ok_bind]
  obtain ⟨b₂, p, rfl, hb₂, rfl, hstop₂⟩ := parseProtocol_ok hok
  by_cases hcr : (leftStrip r₂).head? = some CR
  swap
  · exact .inl ⟨_, Request.parseEnd_not_CR hcr⟩
  obtain ⟨l, hfront, hgap, rfl, -⟩ := RequestLine.exists_front hb₀ hb₁ hb₂ hmethod hmprefix ht₀
    htarget ht₁ (fun h => p.word_ne (List.append_eq_nil_iff.mp h).1) (p.isToken hstop₂) p
  obtain ⟨l', htext⟩ := l.exists_text hstop₂
  refine .inr (.inr ⟨l', leftStrip r₂, ?_, hcr⟩)
  rw [← htext, hfront, hgap, hs]
  simp only [List.append_assoc]

theorem Request.parse_thrown_or_line (s : Bytes) :
    Thrown (Request.parse s) ∨
      ∃ (l : RequestLine) (r : Bytes), s = l.text ++ r ∧ r.head? = some CR := by
  rcases Request.parse_start_cases s with ⟨w, hw⟩ | hcut | hline
  · exact .inl ⟨w, .inl hw⟩
  · obtain ⟨w, hw⟩ := hcut.awaiting
    exact .inl ⟨w, .inr hw⟩
  · exact .inr hline

theorem Request.parseEnd_cut (method target version : Bytes) :
    Request.parseEnd method target version [CR] = .error .undefined := rfl

theorem Request.parseEnd_cons (method target version : Bytes) (x : UInt8) (sv : Bytes) :
    Request.parseEnd method target version (CR :: x :: sv) =
      (parseTail REQUEST_HEADER_NAMES sv >>= fun t =>
        .ok ⟨method, target, version, t.1, t.2⟩) := by
  have hm : mismatch CRLF [CR, x] ≠ 0 := by simp [mismatch, CRLF]
  have hp : removePrefix 2 (CR :: x :: sv) = .ok sv :=
    removePrefix_two_append (show [CR, x].length = 2 from rfl)
  rw [Request.parseEnd]
  simp only [List.take_succ_cons, List.take_zero, expecting_of_ne_nil (List.cons_ne_nil _ _),
    ok_bind, if_neg hm, hp, pure_eq_ok]

/-- The request is rejected by an exception, or it starts with a request line that
a carriage return follows, alone or with one more character. -/
theorem Request.parse_cases (s : Bytes) :
    Thrown (Request.parse s) ∨ (∃ l : RequestLine, s = l.text ++ [CR]) ∨
      ∃ (l : RequestLine) (x : UInt8) (sv : Bytes), s = l.text ++ CR :: x :: sv := by
  rcases Request.parse_thrown_or_line s with h | ⟨l, r, rfl, hr⟩
  · exact .inl h
  match r, hr with
  | [_], hr => exact .inr (.inl ⟨l, by simpa using hr⟩)
  | _ :: x :: sv, hr => exact .inr (.inr ⟨l, x, sv, by simpa using hr⟩)

theorem Request.parse_cut (l : RequestLine) :
    Request.parse (l.text ++ [CR]) = .error .undefined := by
  rw [Request.parse_line l rfl, Request.parseEnd_cut]

theorem Request.parse_line_cons (l : RequestLine) (x : UInt8) (sv : Bytes) :
    Request.parse (l.text ++ CR :: x :: sv) =
      (parseTail REQUEST_HEADER_NAMES sv >>= fun t => .ok (l.request t.1 t.2)) := by
  rw [Request.parse_line l (by simp), Request.parseEnd_cons]
  rfl

/-- What `Request::parse` accepts: a request line, a CR and any further character,
header lines with distinct names, two characters, and a body that fits. -/
theorem Request.parse_ok_iff {s : Bytes} {q : Request} :
    Request.parse s = .ok q ↔
      ∃ (l : RequestLine) (x : UInt8) (ls : List (HeaderLine REQUEST_HEADER_NAMES)) (eol : Bytes),
        s = l.text ++ CR :: x :: (linesText ls ++ (eol ++ q.body)) ∧
          q = l.request (headersOf ls) q.body ∧ Distinct q.headers ∧ TailEnd eol q.body ∧
            BodyFits q.headers q.body := by
  refine ⟨fun h => ?_, ?_⟩
  · rcases Request.parse_cases s with hw | ⟨l, rfl⟩ | ⟨l, x, sv, rfl⟩
    · exact absurd h (hw.ne_ok _)
    · rw [Request.parse_cut] at h
      cases h
    · rw [Request.parse_line_cons] at h
      obtain ⟨⟨headers, body⟩, ht, h⟩ := bind_eq_ok.mp h
      obtain ⟨ls, eol, rfl, rfl, hd, hend, hfit⟩ := (parseTail_ok_iff request_table_ok).mp ht
      obtain rfl := Except.ok.inj h
      exact ⟨l, x, ls, eol, rfl, rfl, hd, hend, hfit⟩
  · rintro ⟨l, x, ls, eol, rfl, hq, hd, hend, hfit⟩
    have ht := (parseTail_ok_iff request_table_ok).mpr
      ⟨ls, eol, rfl, congrArg Request.headers hq, hd, hend, hfit⟩
    rw [Request.parse_line_cons, ht, hq]
    rfl

/-- `Request::parse` leaves its view on exactly two kinds of text: a request line cut
inside its line terminator, and a header section with a single character behind it. -/
theorem Request.parse_undefined_iff {s : Bytes} :
    Request.parse s = .error .undefined ↔
      ∃ l : RequestLine, s = l.text ++ [CR] ∨
        ∃ (x : UInt8) (ls : List (HeaderLine REQUEST_HEADER_NAMES)) (c : UInt8),
          s = l.text ++ CR :: x :: (linesText ls ++ [c]) ∧ Distinct (headersOf ls) := by
  refine ⟨fun h => ?_, ?_⟩
  · rcases Request.parse_cases s with hw | ⟨l, rfl⟩ | ⟨l, x, sv, rfl⟩
    · exact absurd h hw.safe.1
    · exact ⟨l, .inl rfl⟩
    · rw [Request.parse_line_cons, bind_eq_error] at h
      have ht := h.resolve_right (by simp)
      obtain ⟨ls, c, rfl, hd⟩ := (parseTail_undefined_iff request_table_ok).mp ht
      exact ⟨l, .inr ⟨x, ls, c, rfl, hd⟩⟩
  · rintro ⟨l, rfl | ⟨x, ls, c, rfl, hd⟩⟩
    · exact Request.parse_cut l
    · rw [Request.parse_line_cons,
        (parseTail_undefined_iff request_table_ok).mpr ⟨ls, c, rfl, hd⟩]
      rfl

theorem Request.parse_ne_diverges (s : Bytes) : Request.parse s ≠ .error .diverges := by
  intro h
  rcases Request.parse_cases s with hw | ⟨l, rfl⟩ | ⟨l, x, sv, rfl⟩
  · exact hw.safe.2 h
  · rw [Request.parse_cut] at h
    cases h
  · rw [Request.parse_line_cons, bind_eq_error] at h
    exact parseTail_ne_diverges request_table_ok sv (h.resolve_right (by simp))

/-! The status line. -/

structure ResponceLine where
  lead : Bytes
  proto : Protocol
  gap₁ : Bytes
  token : Bytes
  number : ℕ
  gap₂ : Bytes
  text : Bytes
  blank_lead : Blank lead
  blank_gap₁ : Blank gap₁
  blank_gap₂ : Blank gap₂
  start_gap₁ : gap₁.head? = some SP
  token_ne : token ≠ []
  token_clean : ∀ c ∈ token, endsToken c = false
  token_start : ∀ c ∈ token.head?, isSpace c = false
  token_number : stoul token = some number
  code_le : UInt16.ofNat number ≤ NetworkConnectTimeoutError
  start_gap₂ : ∀ c ∈ (gap₂ ++ text).head?, endsToken c = true
  text_start : ∀ c ∈ text.head?, isSpace c = false
  text_crlf : ¬ CRLF <:+: text

namespace ResponceLine

def full (l : ResponceLine) : Bytes :=
  l.lead ++ l.proto.text ++ (l.gap₁ ++ l.token ++ (l.gap₂ ++ l.text))

def responce (l : ResponceLine) (headers : List Header) (body : Bytes) : Responce :=
  ⟨l.proto.version, UInt16.ofNat l.number, l.text, headers, body⟩

theorem gap₁_ne (l : ResponceLine) : l.gap₁ ≠ [] := fun h => by
  simpa [h] using l.start_gap₁

theorem stop_gap₁ (l : ResponceLine) (rest : Bytes) :
    ∀ c ∈ (l.gap₁ ++ rest).head?, endsToken c = true := by
  intro c hc
  rw [List.head?_append_of_ne_nil _ l.gap₁_ne, l.start_gap₁] at hc
  obtain rfl : SP = c := by simpa using hc
  rfl

theorem token_isToken (l : ResponceLine) {rest : Bytes}
    (hstop : ∀ c ∈ rest.head?, endsToken c = true) : IsToken l.token rest := by
  refine ⟨l.token_clean, fun c hc => ?_, hstop⟩
  rw [List.head?_append_of_ne_nil _ l.token_ne] at hc
  exact l.token_start c hc

end ResponceLine

/-- `Responce::parse` from the status token on. -/
def Responce.parseCode (version sv : Bytes) : Parse Responce := do
  let (token, sv) ← readToken sv
  let code ← codeOfToken token
  if code.toNat < 60 ∧ sv = [] then throw (.expectingData (lit "Status code"))
  if NetworkConnectTimeoutError < code then throw (.incorrectData (lit "Status code"))
  let sv := leftStrip sv
  let cur := Search.find CRLF sv
  if cur = none then throw (.expectingData (lit "Start line"))
  let text ← rangeTo cur sv
  let sv ← removePrefix (cur.getD 0 + 2) sv
  let (headers, body) ← parseTail RESPONCE_HEADER_NAMES sv
  return { version, code, text, headers, body }

theorem Responce.parse_eq (responce : Bytes) : Responce.parse responce = (do
    let (version, sv) ← parseProtocol responce
    Responce.parseCode version sv) := by
  simp only [Responce.parse, Responce.parseCode, parseTail, bind_assoc, pure_bind]

/-- A head that ends the token before it, once the blanks are stripped. -/
theorem head_append_crlf {l : Bytes} (rest : Bytes) (p : UInt8 → Bool)
    (hl : ∀ c ∈ l.head?, p c = true) (hcr : p CR = true) :
    ∀ c ∈ (l ++ (CRLF ++ rest)).head?, p c = true := by
  intro c hc
  cases l with
  | nil =>
    obtain rfl : CR = c := by simpa [CRLF] using hc
    exact hcr
  | cons d l => exact hl c (by simpa using hc)

theorem Responce.parse_line (l : ResponceLine) (sv : Bytes) :
    Responce.parse (l.full ++ (CRLF ++ sv)) =
      (parseTail RESPONCE_HEADER_NAMES sv >>= fun t => .ok (l.responce t.1 t.2)) := by
  have hcode : codeOfToken l.token = .ok (UInt16.ofNat l.number) := by
    simp [codeOfToken, l.token_number]
  have hsplit : l.full ++ (CRLF ++ sv) = l.lead ++ l.proto.text ++
      (l.gap₁ ++ l.token ++ (l.gap₂ ++ (l.text ++ (CRLF ++ sv)))) := by
    simp [ResponceLine.full]
  have hstop₁ := l.stop_gap₁ (l.token ++ (l.gap₂ ++ (l.text ++ (CRLF ++ sv))))
  rw [← List.append_assoc] at hstop₁
  have hstop₂ : ∀ c ∈ (l.gap₂ ++ (l.text ++ (CRLF ++ sv))).head?, endsToken c = true := by
    rw [← List.append_assoc]
    exact head_append_crlf _ endsToken l.start_gap₂ endsToken_CR
  have hstrip : leftStrip (l.gap₂ ++ (l.text ++ (CRLF ++ sv))) = l.text ++ (CRLF ++ sv) := by
    apply leftStrip_append l.blank_gap₂
    have hstart : ∀ c ∈ l.text.head?, (!isSpace c) = true := fun c hc => by
      rw [l.text_start c hc]
      rfl
    have := head_append_crlf sv (fun c => !isSpace c) hstart (by rfl)
    simpa using this
  have hne : l.gap₁ ++ l.token ++ (l.gap₂ ++ (l.text ++ (CRLF ++ sv))) ≠ [] := by
    simp [CRLF]
  have hne₂ : ¬ ((UInt16.ofNat l.number).toNat < 60 ∧ l.gap₂ ++ (l.text ++ (CRLF ++ sv)) = []) := by
    simp [CRLF]
  have hle : ¬ NetworkConnectTimeoutError < UInt16.ofNat l.number :=
    UInt16.not_lt.mpr l.code_le
  have hdrop : removePrefix (l.text.length + 2) (l.text ++ (CRLF ++ sv)) = .ok sv := by
    unfold removePrefix
    rw [if_pos (by simp [CRLF]), ← List.append_assoc, List.drop_left' (by simp [CRLF])]
  rw [Responce.parse_eq, hsplit, parseProtocol_append l.blank_lead l.proto hstop₁ hne]
  simp only [ok_bind, Responce.parseCode, readToken_append l.blank_gap₁ (l.token_isToken hstop₂),
    hcode, pure_eq_ok, if_neg hne₂, if_neg hle, hstrip, find_crlf_append sv l.text_crlf,
    reduceCtorEq, if_false, rangeTo, List.length_append, Nat.le_add_right, if_true,
    List.take_left, Option.getD_some, hdrop]
  rfl

/-- The protocol token is cut, or the line is, behind a status number. -/
inductive StatusAwaits : Bytes → Prop
  | proto (lead token rest : Bytes) (hb : Blank lead) (ht : IsToken token rest)
      (h : ProtocolAwaits token rest) : StatusAwaits (lead ++ token ++ rest)
  | line (lead : Bytes) (p : Protocol) (gap token rest : Bytes) (n : ℕ) (hb : Blank lead)
      (hgap : Blank gap) (hstart : gap.head? = some SP) (ht : IsToken token rest)
      (hn : stoul token = some n) (hle : UInt16.ofNat n ≤ NetworkConnectTimeoutError)
      (hno : ¬ CRLF <:+: rest) : StatusAwaits (lead ++ p.text ++ (gap ++ token ++ rest))

theorem StatusAwaits.awaiting {s : Bytes} (h : StatusAwaits s) : Awaiting (Responce.parse s) := by
  cases h with
  | proto lead token rest hb ht hawaits =>
    rw [Responce.parse_eq, awaiting_bind, parseProtocol_awaiting hb ht]
    exact .inl hawaits
  | line lead p gap token rest n hb hgap hstart ht hn hle hno =>
    have hne : gap ++ token ++ rest ≠ [] := by
      intro h
      rw [List.append_assoc] at h
      simp [(List.append_eq_nil_iff.mp h).1] at hstart
    have hstop : ∀ c ∈ (gap ++ token ++ rest).head?, endsToken c = true := by
      intro c hc
      rw [List.append_assoc, List.head?_append, hstart] at hc
      obtain rfl : SP = c := by simpa using hc
      rfl
    have hcode : codeOfToken token = .ok (UInt16.ofNat n) := by simp [codeOfToken, hn]
    have hfind : Search.find CRLF (leftStrip rest) = none := by
      obtain ⟨b, hrest, hb', -⟩ := leftStrip_spec rest
      rw [hrest, crlf_infix_append (blank_CR_not_mem hb')] at hno
      exact (Search.find_eq_none_iff _ _).mpr hno
    rw [Responce.parse_eq, parseProtocol_append hb p hstop hne]
    simp only [ok_bind, Responce.parseCode, readToken_append hgap ht, hcode, hfind,
      if_neg (UInt16.not_lt.mpr hle), throw_eq_error, error_bind, pure_eq_ok]
    split_ifs <;> exact awaiting_expecting _

/-- A status line that is let through, with the CRLF behind its text. -/
theorem ResponceLine.exists_full {b₀ b₁ token r text sv : Bytes} {p : Protocol} {n : ℕ}
    (hb₀ : Blank b₀) (hb₁ : Blank b₁) (hg₁ : b₁.head? = some SP) (hne : token ≠ [])
    (ht : IsToken token r) (hn : stoul token = some n)
    (hle : UInt16.ofNat n ≤ NetworkConnectTimeoutError)
    (hr : leftStrip r = text ++ (CRLF ++ sv)) (hno : ¬ CRLF <:+: text) :
    ∃ l : ResponceLine, b₀ ++ p.text ++ (b₁ ++ token ++ r) = l.full ++ (CRLF ++ sv) ∧
      l.number = n := by
  obtain ⟨b₂, hr₁, hb₂, hstart⟩ := leftStrip_spec r
  rw [hr] at hr₁ hstart
  refine ⟨⟨b₀, p, b₁, token, n, b₂, text, hb₀, hb₁, hb₂, hg₁, hne, ht.inside,
    fun c hc => ht.start c ?_, hn, hle, fun c hc => ht.stop c ?_, fun c hc => hstart c ?_, hno⟩,
    ?_, rfl⟩
  · rw [List.head?_append, hc]
    rfl
  · rw [hr₁, ← List.append_assoc, List.head?_append, hc]
    rfl
  · rw [List.head?_append, hc]
    rfl
  · simp [ResponceLine.full, hr₁]

/-- A response is rejected, or cut in its status line, or it has a status line with a CRLF
behind it. -/
theorem Responce.parse_start_cases (s : Bytes) :
    (∃ w, Responce.parse s = .error (.incorrectData w)) ∨ StatusAwaits s ∨
      ∃ (l : ResponceLine) (sv : Bytes), s = l.full ++ (CRLF ++ sv) := by
  by_cases hproto : Awaiting (parseProtocol s)
  · obtain ⟨b, token, rest, rfl, hb, ht, -⟩ := readToken_spec s
    exact .inr (.inl (.proto b token rest hb ht ((parseProtocol_awaiting hb ht).mp hproto)))
  rw [Responce.parse_eq]
  rcases (parseProtocol_safe s).cases with ⟨w, hw | hw⟩ | ⟨⟨version, r₀⟩, hok⟩
  · exact .inl ⟨w, by rw [hw]; rfl⟩
  · exact absurd ⟨w, hw⟩ hproto
  obtain ⟨b₀, p, rfl, hb₀, rfl, hstop₀⟩ := parseProtocol_ok hok
  obtain ⟨b₁, token, r₁, rfl, hb₁, ht₁, hread⟩ := readToken_spec r₀
  simp only [hok, ok_bind, Responce.parseCode, hread]
  cases hn : stoul token with
  | none => exact .inl ⟨_, by rw [codeOfToken, hn]; rfl⟩
  | some n =>
  have hcode : codeOfToken token = .ok (UInt16.ofNat n) := by simp [codeOfToken, hn]
  have htoken : token ≠ [] := by
    rintro rfl
    cases hn
  have hg₁ : b₁.head? = some SP := head_gap _ _ hb₁ htoken ht₁.inside hstop₀
  simp only [hcode, ok_bind, throw_eq_error, error_bind]
  by_cases hshort : (UInt16.ofNat n).toNat < 60 ∧ r₁ = []
  · obtain ⟨hlt, rfl⟩ := hshort
    refine .inr (.inl (.line b₀ p b₁ token [] n hb₀ hb₁ hg₁ ht₁ hn ?_ (by simp [CRLF])))
    exact UInt16.le_iff_toNat_le.mpr (hlt.le.trans (by decide))
  by_cases hbig : NetworkConnectTimeoutError < UInt16.ofNat n
  · exact .inl ⟨_, by rw [if_neg hshort, if_pos hbig]⟩
  obtain ⟨b₂, hr₁, hb₂, -⟩ := leftStrip_spec r₁
  cases hfind : Search.find CRLF (leftStrip r₁) with
  | none =>
    refine .inr (.inl (.line b₀ p b₁ token r₁ n hb₀ hb₁ hg₁ ht₁ hn (UInt16.not_lt.mp hbig) ?_))
    rw [hr₁, crlf_infix_append (blank_CR_not_mem hb₂)]
    exact (Search.find_eq_none_iff _ _).mp hfind
  | some m =>
  obtain ⟨text, sv, htext, -, hno⟩ := find_crlf_some hfind
  obtain ⟨l, hl, -⟩ := ResponceLine.exists_full (p := p) hb₀ hb₁ hg₁ htoken ht₁ hn
    (UInt16.not_lt.mp hbig) htext hno
  exact .inr (.inr ⟨l, sv, hl⟩)

theorem Responce.parse_cases (s : Bytes) :
    Thrown (Responce.parse s) ∨
      ∃ (l : ResponceLine) (sv : Bytes), s = l.full ++ (CRLF ++ sv) := by
  rcases Responce.parse_start_cases s with ⟨w, hw⟩ | hcut | hline
  · exact .inl ⟨w, .inl hw⟩
  · obtain ⟨w, hw⟩ := hcut.awaiting
    exact .inl ⟨w, .inr hw⟩
  · exact .inr hline

/-- What `Responce::parse` accepts: a status line, CRLF, header lines with distinct
names, two characters, and a body that fits. -/
theorem Responce.parse_ok_iff {s : Bytes} {q : Responce} :
    Responce.parse s = .ok q ↔
      ∃ (l : ResponceLine) (ls : List (HeaderLine RESPONCE_HEADER_NAMES)) (eol : Bytes),
        s = l.full ++ (CRLF ++ (linesText ls ++ (eol ++ q.body))) ∧
          q = l.responce (headersOf ls) q.body ∧ Distinct q.headers ∧ TailEnd eol q.body ∧
            BodyFits q.headers q.body := by
  refine ⟨fun h => ?_, ?_⟩
  · rcases Responce.parse_cases s with hw | ⟨l, sv, rfl⟩
    · exact absurd h (hw.ne_ok _)
    rw [Responce.parse_line] at h
    obtain ⟨⟨headers, body⟩, ht, h⟩ := bind_eq_ok.mp h
    obtain ⟨ls, eol, rfl, rfl, hd, hend, hfit⟩ := (parseTail_ok_iff responce_table_ok).mp ht
    obtain rfl := Except.ok.inj h
    exact ⟨l, ls, eol, rfl, rfl, hd, hend, hfit⟩
  · rintro ⟨l, ls, eol, rfl, hq, hd, hend, hfit⟩
    have ht := (parseTail_ok_iff responce_table_ok).mpr
      ⟨ls, eol, rfl, congrArg Responce.headers hq, hd, hend, hfit⟩
    rw [Responce.parse_line, ht, hq]
    rfl

theorem Responce.parse_undefined_iff {s : Bytes} :
    Responce.parse s = .error .undefined ↔
      ∃ (l : ResponceLine) (ls : List (HeaderLine RESPONCE_HEADER_NAMES)) (c : UInt8),
        s = l.full ++ (CRLF ++ (linesText ls ++ [c])) ∧ Distinct (headersOf ls) := by
  refine ⟨fun h => ?_, ?_⟩
  · rcases Responce.parse_cases s with hw | ⟨l, sv, rfl⟩
    · exact absurd h hw.safe.1
    rw [Responce.parse_line, bind_eq_error] at h
    have ht := h.resolve_right (by simp)
    obtain ⟨ls, c, rfl, hd⟩ := (parseTail_undefined_iff responce_table_ok).mp ht
    exact ⟨l, ls, c, rfl, hd⟩
  · rintro ⟨l, ls, c, rfl, hd⟩
    rw [Responce.parse_line, (parseTail_undefined_iff responce_table_ok).mpr ⟨ls, c, rfl, hd⟩]
    rfl

theorem Responce.parse_ne_diverges (s : Bytes) : Responce.parse s ≠ .error .diverges := by
  intro h
  rcases Responce.parse_cases s with hw | ⟨l, sv, rfl⟩
  · exact hw.safe.2 h
  rw [Responce.parse_line, bind_eq_error] at h
  exact parseTail_ne_diverges responce_table_ok sv (h.resolve_right (by simp))

end Sphere.Http
