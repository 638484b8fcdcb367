import Sphere.Http.Grammar

/-! Where a message ends. With anything behind it an accepted message whose header section has
its empty line is incorrect. The parser also accepts shorter beginnings of some of these
messages, but only such as break off before the empty line. -/

namespace Sphere.Http

variable {names : List Bytes}

/-- An accepted request with the empty line behind its headers, which the parser does not
insist on. -/
def Request.Whole (s : Bytes) : Prop :=
  (∃ q, Request.parse s = .ok q) ∧
    ∃ (l : RequestLine) (x : UInt8) (t : Bytes), s = l.text ++ CR :: x :: t ∧ HasEmptyLine t

def Responce.Whole (s : Bytes) : Prop :=
  (∃ q, Responce.parse s = .ok q) ∧
    ∃ (l : ResponceLine) (t : Bytes), s = l.full ++ (CRLF ++ t) ∧ HasEmptyLine t

/-- A body that fits has another length with something behind it. -/
theorem parseBody_longer {headers : List Header} {body more : Bytes} (h : BodyFits headers body)
    (hmore : more ≠ []) :
    ∃ what, parseBody headers (body ++ more) = .error (.incorrectData what) := by
  have hlen : body.length < (body ++ more).length := by
    have hpos := List.length_pos_of_ne_nil hmore
    rw [List.length_append]
    omega
  unfold BodyFits at h
  unfold parseBody
  cases hfind : headers.find? isLengthHeader with
  | none =>
    refine ⟨_, if_pos ?_⟩
    simp [hmore]
  | some it =>
    rw [hfind] at h
    simp only [show stoul it.value = some body.length from h]
    exact ⟨_, by rw [if_neg (by omega), if_pos hlen]⟩

theorem parseTail_longer (ht : TableOk names) {t more : Bytes} {r : List Header × Bytes}
    (h : parseTail names t = .ok r) (hempty : HasEmptyLine t) (hmore : more ≠ []) :
    ∃ what, parseTail names (t ++ more) = .error (.incorrectData what) := by
  obtain ⟨ls, eol, rfl, hheaders, hdistinct, ⟨hlen, heol⟩, hfits⟩ := (parseTail_ok_iff ht).mp h
  have hcrlf : eol = CRLF := heol.resolve_right fun hno => not_hasEmptyLine ht ls hno hempty
  rw [hheaders] at hdistinct hfits
  obtain ⟨what, hbody⟩ := parseBody_longer hfits hmore
  have hend : TailEnd eol (r.2 ++ more) := ⟨hlen, .inl hcrlf⟩
  have htext : linesText ls ++ (eol ++ r.2) ++ more = linesText ls ++ (eol ++ (r.2 ++ more)) := by
    simp only [List.append_assoc]
  exact ⟨what, by rw [htext, parseTail_end ht hdistinct hend, hbody]; rfl⟩

theorem Request.longer {s more : Bytes} (h : Request.Whole s) (hmore : more ≠ []) :
    ∃ what, Request.parse (s ++ more) = .error (.incorrectData what) := by
  obtain ⟨⟨q, hq⟩, l, x, t, rfl, hempty⟩ := h
  obtain ⟨what, htail⟩ :=
    parseTail_longer request_table_ok (Request.parse_ok_tail hq).1 hempty hmore
  have htext : l.text ++ CR :: x :: t ++ more = l.text ++ CR :: x :: (t ++ more) := by simp
  exact ⟨what, by rw [htext, Request.parse_line_cons, htail]; rfl⟩

theorem Responce.longer {s more : Bytes} (h : Responce.Whole s) (hmore : more ≠ []) :
    ∃ what, Responce.parse (s ++ more) = .error (.incorrectData what) := by
  obtain ⟨⟨q, hq⟩, l, t, rfl, hempty⟩ := h
  obtain ⟨what, htail⟩ :=
    parseTail_longer responce_table_ok (Responce.parse_ok_tail hq).1 hempty hmore
  have htext : l.full ++ (CRLF ++ t) ++ more = l.full ++ (CRLF ++ (t ++ more)) := by simp
  exact ⟨what, by rw [htext, Responce.parse_line, htail]; rfl⟩

/-- Where anything behind one of these texts is refused, each is the only one of them that the
stream starts with. -/
theorem only_length (Whole Refused : Bytes → Prop)
    (hlonger : ∀ s more, Whole s → more ≠ [] → Refused (s ++ more))
    (hnot : ∀ s, Whole s → ¬ Refused s) {s stream : Bytes} (h : Whole s) (hp : s <+: stream)
    {n : ℕ} (hn : n ≤ stream.length) :
    (s.length < n → Refused (stream.take n)) ∧ (n < s.length → ¬ Whole (stream.take n)) := by
  obtain ⟨rest, rfl⟩ := hp
  refine ⟨fun hlt => ?_, fun hlt hwhole => ?_⟩
  · obtain ⟨k, rfl⟩ := Nat.exists_eq_add_of_lt hlt
    rw [List.length_append] at hn
    rw [Nat.add_assoc, List.take_length_add_append]
    refine hlonger s _ h fun hnil => ?_
    have hlen := congrArg List.length hnil
    rw [List.length_take, List.length_nil] at hlen
    omega
  · rw [List.take_append_of_le_length hlt.le] at hwhole
    have hdrop : s.drop n ≠ [] := fun hnil => by
      have hlen := congrArg List.length hnil
      rw [List.length_drop, List.length_nil] at hlen
      omega
    have hrefused := hlonger _ _ hwhole hdrop
    rw [List.take_append_drop] at hrefused
    exact hnot s h hrefused

/-- Where a stream starts with a message that has its empty line, what is longer is refused as
incorrect, and what is shorter is refused or has no empty line behind its start line. -/
theorem message_boundary (s stream : Bytes) (hp : s <+: stream) {n : ℕ} (hn : n ≤ stream.length) :
    (Request.Whole s →
      (s.length < n → ∃ what, Request.parse (stream.take n) = .error (.incorrectData what)) ∧
      (n < s.length → ∀ q, Request.parse (stream.take n) = .ok q →
        ∀ (l : RequestLine) (x : UInt8) (t : Bytes), stream.take n = l.text ++ CR :: x :: t →
          ¬ HasEmptyLine t)) ∧
    (Responce.Whole s →
      (s.length < n → ∃ what, Responce.parse (stream.take n) = .error (.incorrectData what)) ∧
      (n < s.length → ∀ q, Responce.parse (stream.take n) = .ok q →
        ∀ (l : ResponceLine) (t : Bytes), stream.take n = l.full ++ (CRLF ++ t) →
          ¬ HasEmptyLine t)) := by
  have hrequest : ∀ s, Request.Whole s →
      ¬ ∃ what, Request.parse s = .error (.incorrectData what) := by
    rintro s ⟨⟨q, hq⟩, -⟩ ⟨what, hw⟩
    cases hq.symm.trans hw
  have hresponce : ∀ s, Responce.Whole s →
      ¬ ∃ what, Responce.parse s = .error (.incorrectData what) := by
    rintro s ⟨⟨q, hq⟩, -⟩ ⟨what, hw⟩
    cases hq.symm.trans hw
  refine ⟨fun h => ?_, fun h => ?_⟩
  · obtain ⟨hlonger, hshorter⟩ := only_length Request.Whole _ (fun _ _ => Request.longer) hrequest
      h hp hn
    exact ⟨hlonger, fun hlt q hq l x t ht hempty => hshorter hlt ⟨⟨q, hq⟩, l, x, t, ht, hempty⟩⟩
  · obtain ⟨hlonger, hshorter⟩ := only_length Responce.Whole _ (fun _ _ => Responce.longer)
      hresponce h hp hn
    exact ⟨hlonger, fun hlt q hq l t ht hempty => hshorter hlt ⟨⟨q, hq⟩, l, t, ht, hempty⟩⟩

theorem whole_bare : Request.Whole (lit "GET / HTTP/1.1\r\n\r\n") := by
  have hq : Request.parse (lit "GET / HTTP/1.1\r\n\r\n") =
      .ok ⟨lit "GET", lit "/", lit "1.1", [], []⟩ := rfl
  obtain ⟨l, x, ls, eol, hs, hline, -, hend, -⟩ := Request.parse_ok_iff.mp hq
  obtain rfl : ls = [] := List.map_eq_nil_iff.mp (congrArg Request.headers hline).symm
  refine ⟨⟨_, hq⟩, l, x, _, hs, .inl ?_⟩
  have heol : eol = CRLF := by
    have hcut : lit "GET / HTTP/1.1\r\n" ++ CRLF = l.text ++ [CR, x] ++ eol := by
      have hall : lit "GET / HTTP/1.1\r\n" ++ CRLF = lit "GET / HTTP/1.1\r\n\r\n" := rfl
      rw [hall, hs]
      simp [linesText]
    exact (List.append_inj' hcut hend.1.symm).2.symm
  rw [heol]
  exact List.prefix_append _ _

/-- A request and the first byte of the next one. -/
theorem message_boundary_bare :
    ∃ what, Request.parse (lit "GET / HTTP/1.1\r\n\r\nG") = .error (.incorrectData what) :=
  ((message_boundary (lit "GET / HTTP/1.1\r\n\r\n") (lit "GET / HTTP/1.1\r\n\r\nGET") (by decide)
    (n := 19) (by decide)).1 whole_bare).1 (by decide)

end Sphere.Http
