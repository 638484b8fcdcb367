import Sphere.Http.Message

/-! What the small steps of the parser do, each as one lemma in both directions:
stripping, cutting a token, comparing with an expectation, the protocol token. A
view is described by the parts it is assembled from. -/

namespace Sphere.Http

open Lib

theorem bind_eq_ok {α β : Type} {x : Parse α} {f : α → Parse β} {b : β} :
    (x >>= f) = .ok b ↔ ∃ a, x = .ok a ∧ f a = .ok b := by
  cases x <;> simp [bind, Except.bind]

theorem bind_eq_error {α β : Type} {x : Parse α} {f : α → Parse β} {e : Stop} :
    (x >>= f) = .error e ↔ x = .error e ∨ ∃ a, x = .ok a ∧ f a = .error e := by
  cases x <;> simp [bind, Except.bind]

@[simp] theorem ok_bind {α β : Type} (a : α) (f : α → Parse β) :
    ((Except.ok a : Parse α) >>= f) = f a := rfl

@[simp] theorem pure_eq_ok {α : Type} (a : α) : (pure a : Parse α) = .ok a := rfl

@[simp] theorem throw_eq_error {α : Type} (e : Stop) : (throw e : Parse α) = .error e := rfl

@[simp] theorem error_bind {α β : Type} (e : Stop) (f : α → Parse β) :
    ((Except.error e : Parse α) >>= f) = .error e := rfl

/-- Ends normally or by an exception: no step leaves a view and no loop diverges. -/
def Safe {α : Type} (x : Parse α) : Prop := x ≠ .error .undefined ∧ x ≠ .error .diverges

@[simp] theorem safe_ok {α : Type} (a : α) : Safe (Except.ok a : Parse α) := by simp [Safe]

@[simp] theorem safe_expecting {α : Type} (w : Bytes) :
    Safe (Except.error (.expectingData w) : Parse α) := by simp [Safe]

@[simp] theorem safe_incorrect {α : Type} (w : Bytes) :
    Safe (Except.error (.incorrectData w) : Parse α) := by simp [Safe]

theorem Safe.bind {α β : Type} {x : Parse α} {f : α → Parse β} (hx : Safe x)
    (hf : ∀ a, x = .ok a → Safe (f a)) : Safe (x >>= f) := by
  cases x with
  | ok a => exact hf a rfl
  | error e => simpa [Safe] using hx

/-- Ends by one of the two exceptions. -/
def Thrown {α : Type} (x : Parse α) : Prop :=
  ∃ w, x = .error (.incorrectData w) ∨ x = .error (.expectingData w)

theorem Thrown.bind {α β : Type} {x : Parse α} (hx : Thrown x) (f : α → Parse β) :
    Thrown (x >>= f) := by
  obtain ⟨w, rfl | rfl⟩ := hx
  · exact ⟨w, .inl rfl⟩
  · exact ⟨w, .inr rfl⟩

theorem Thrown.ne_ok {α : Type} {x : Parse α} (hx : Thrown x) (a : α) : x ≠ .ok a := by
  obtain ⟨w, rfl | rfl⟩ := hx <;> simp

theorem Thrown.safe {α : Type} {x : Parse α} (hx : Thrown x) : Safe x := by
  obtain ⟨w, rfl | rfl⟩ := hx <;> simp

theorem Safe.cases {α : Type} {x : Parse α} (hx : Safe x) : Thrown x ∨ ∃ a, x = .ok a := by
  match x with
  | .ok a => exact .inr ⟨a, rfl⟩
  | .error (.expectingData w) => exact .inl ⟨w, .inr rfl⟩
  | .error (.incorrectData w) => exact .inl ⟨w, .inl rfl⟩
  | .error .undefined => exact absurd rfl hx.1
  | .error .diverges => exact absurd rfl hx.2

/-! Blanks and tokens. -/

def Blank (b : Bytes) : Prop := ∀ c ∈ b, isSpace c = true

theorem blank_nil : Blank [] := by simp [Blank]

/-- `token` stands at the front of a view and is followed by `rest`. -/
structure IsToken (token rest : Bytes) : Prop where
  inside : ∀ c ∈ token, endsToken c = false
  start : ∀ c ∈ (token ++ rest).head?, isSpace c = false
  stop : ∀ c ∈ rest.head?, endsToken c = true

theorem leftStrip_append {b l : Bytes} (hb : Blank b) (hl : ∀ c ∈ l.head?, isSpace c = false) :
    leftStrip (b ++ l) = l := by
  induction b with
  | nil =>
    cases l with
    | nil => rfl
    | cons c l => simp [leftStrip, hl c (by simp)]
  | cons c b ih =>
    have hc : isSpace c = true := hb c (by simp)
    simp [leftStrip, hc, ih fun d hd => hb d (List.mem_cons_of_mem c hd)]

theorem leftStrip_spec (sv : Bytes) :
    ∃ b, sv = b ++ leftStrip sv ∧ Blank b ∧ ∀ c ∈ (leftStrip sv).head?, isSpace c = false := by
  obtain ⟨b, l, rfl, hb, hl⟩ := Search.exists_cut (fun c => !isSpace c) sv
  have hb' : Blank b := fun c hc => by simpa using hb c hc
  have hl' : ∀ c ∈ l.head?, isSpace c = false := fun c hc => by simpa using hl c hc
  exact ⟨b, by rw [leftStrip_append hb' hl'], hb', by rwa [leftStrip_append hb' hl']⟩

theorem readToken_append {b token rest : Bytes} (hb : Blank b) (ht : IsToken token rest) :
    readToken (b ++ token ++ rest) = .ok (token, rest) := by
  have hpos := Search.findIdx?_append_of_not (p := endsToken) ht.inside ht.stop
  have hlen : ((token ++ rest).findIdx? endsToken).getD (token ++ rest).length =
      token.length := by
    rw [hpos]
    split_ifs with h <;> simp [h]
  have hle : token.length ≤ (token ++ rest).length := by simp
  simp only [readToken, List.append_assoc, leftStrip_append hb ht.start, hlen, removePrefix,
    if_pos hle, ok_bind, List.take_left, List.drop_left, pure_eq_ok]

theorem readToken_spec (sv : Bytes) :
    ∃ b token rest, sv = b ++ token ++ rest ∧ Blank b ∧ IsToken token rest ∧
      readToken sv = .ok (token, rest) := by
  obtain ⟨b, hsv, hb, hl⟩ := leftStrip_spec sv
  obtain ⟨token, rest, hcut, hin, hstop⟩ := Search.exists_cut endsToken (leftStrip sv)
  have ht : IsToken token rest := ⟨hin, hcut ▸ hl, hstop⟩
  have hsv' : sv = b ++ token ++ rest := by rw [List.append_assoc, ← hcut]; exact hsv
  exact ⟨b, token, rest, hsv', hb, ht, hsv' ▸ readToken_append hb ht⟩

theorem readToken_nil_again {rest : Bytes} (h : IsToken [] rest) :
    readToken rest = .ok ([], rest) := by
  have := readToken_append (b := []) (by simp [Blank]) h
  simpa using this

/-! Expectations. -/

theorem mismatch_le_right (a b : Bytes) : mismatch a b ≤ b.length := by
  induction a generalizing b with
  | nil => simp [mismatch]
  | cons x a ih =>
    cases b with
    | nil => simp [mismatch]
    | cons y b =>
      simp only [mismatch, List.length_cons]
      split_ifs with h
      · exact Nat.succ_le_succ (ih b)
      · omega

theorem mismatch_eq_length_iff (a b : Bytes) : mismatch a b = b.length ↔ b <+: a := by
  induction a generalizing b with
  | nil => cases b <;> simp [mismatch]
  | cons x a ih =>
    cases b with
    | nil => simp [mismatch]
    | cons y b =>
      simp only [mismatch, List.length_cons, List.cons_prefix_cons]
      split_ifs with h
      · simp [ih, h]
      · have h' : y ≠ x := fun hh => h hh.symm
        simp [h']

theorem take_mismatch_prefix (a b : Bytes) : b.take (mismatch a b) <+: a := by
  induction a generalizing b with
  | nil => simp [mismatch]
  | cons x a ih =>
    cases b with
    | nil => simp [mismatch]
    | cons y b =>
      simp only [mismatch]
      split_ifs with h
      · simp [h, ih]
      · simp

/-- The common prefix of `p ++ a` and `p ++ b` ends where `a` and `b` part. -/
theorem mismatch_append {p a b : Bytes} (h : ∀ c ∈ a.head?, ∀ d ∈ b.head?, c ≠ d) :
    mismatch (p ++ a) (p ++ b) = p.length := by
  induction p with
  | nil =>
    cases a with
    | nil => simp [mismatch]
    | cons c a =>
      cases b with
      | nil => simp [mismatch]
      | cons d b => simp [mismatch, h c (by simp) d (by simp)]
  | cons x p ih => simp [mismatch, ih]

theorem expecting_eq (expectation reality fullMessage hint : Bytes) :
    expecting expectation reality fullMessage hint =
      if reality ≠ [] ∧ reality <+: expectation ∧ reality ≠ expectation ∧ fullMessage = [] then
        .error (.expectingData (if hint = [] then expectation else hint))
      else .ok (mismatch expectation reality) := by
  unfold expecting
  refine if_congr ?_ rfl rfl
  by_cases hp : reality <+: expectation
  · have hm := (mismatch_eq_length_iff expectation reality).mpr hp
    have hlt : reality.length < expectation.length ↔ reality ≠ expectation := by
      have hle := hp.length_le
      refine ⟨fun h he => by simp [he] at h, fun h => ?_⟩
      exact lt_of_le_of_ne hle fun he => h (hp.eq_of_length he)
    simp [hm, hp, hlt, List.length_pos_iff]
  · have hm : mismatch expectation reality ≠ reality.length :=
      fun h => hp ((mismatch_eq_length_iff _ _).mp h)
    simp [hm, hp]

theorem expecting_of_ne_nil {fullMessage : Bytes} (hf : fullMessage ≠ [])
    (expectation reality hint : Bytes) :
    expecting expectation reality fullMessage hint = .ok (mismatch expectation reality) := by
  rw [expecting_eq, if_neg fun h => hf h.2.2.2]

theorem expecting_safe (expectation reality fullMessage hint : Bytes) :
    Safe (expecting expectation reality fullMessage hint) := by
  rw [expecting_eq]
  split_ifs <;> simp

theorem expecting_ok {expectation reality fullMessage hint : Bytes} {cur : ℕ}
    (h : expecting expectation reality fullMessage hint = .ok cur) :
    cur = mismatch expectation reality := by
  rw [expecting_eq] at h
  split_ifs at h
  exact (Except.ok.inj h).symm

theorem findExpected_safe (reality fullMessage hint : Bytes) (range : List Bytes) :
    Safe (findExpected reality fullMessage hint range) := by
  induction range with
  | nil => simp [findExpected]
  | cons sv range ih =>
    refine (expecting_safe sv reality fullMessage hint).bind fun cur _ => ?_
    split_ifs
    · exact safe_ok _
    · exact ih

theorem findExpected_true {reality fullMessage hint : Bytes} {range : List Bytes}
    (h : findExpected reality fullMessage hint range = .ok true) :
    ∃ sv ∈ range, reality <+: sv := by
  induction range with
  | nil => simp [findExpected] at h
  | cons sv range ih =>
    obtain ⟨cur, hcur, h⟩ := bind_eq_ok.mp h
    split_ifs at h with hc
    · rw [expecting_ok hcur, mismatch_eq_length_iff] at hc
      exact ⟨sv, by simp, hc⟩
    · obtain ⟨sv', hmem, hp⟩ := ih h
      exact ⟨sv', List.mem_cons_of_mem sv hmem, hp⟩

/-- With more input behind the token nothing is expected any more: the token is
found when it is a prefix of an entry. -/
theorem findExpected_of_ne_nil {fullMessage : Bytes} (hf : fullMessage ≠ []) (reality hint : Bytes)
    (range : List Bytes) :
    findExpected reality fullMessage hint range =
      .ok (range.any fun sv => reality.isPrefixOf sv) := by
  induction range with
  | nil => rfl
  | cons sv range ih =>
    simp only [findExpected, expecting_of_ne_nil hf, ok_bind, mismatch_eq_length_iff, List.any_cons]
    split_ifs with h
    · simp [List.isPrefixOf_iff_prefix.mpr h]
    · have h' : reality.isPrefixOf sv = false := by
        rw [Bool.eq_false_iff]
        exact fun hh => h (List.isPrefixOf_iff_prefix.mp hh)
      rw [ih, h', Bool.false_or]

theorem expectingToFindInRange_safe (range : List Bytes) (reality fullMessage hint : Bytes) :
    Safe (expectingToFindInRange range reality fullMessage hint) := by
  refine (findExpected_safe reality fullMessage hint range).bind fun b _ => ?_
  cases b with
  | true => exact safe_ok _
  | false => exact safe_incorrect _

theorem expectingToFindInRange_ok {range : List Bytes} {reality fullMessage hint : Bytes}
    {u : Unit} (h : expectingToFindInRange range reality fullMessage hint = .ok u) :
    ∃ sv ∈ range, reality <+: sv := by
  obtain ⟨b, hb, h⟩ := bind_eq_ok.mp h
  cases b with
  | true => exact findExpected_true hb
  | false => simp at h

theorem expectingToFindInRange_of_prefix {range : List Bytes} {reality fullMessage hint sv : Bytes}
    (hf : fullMessage ≠ []) (hsv : sv ∈ range) (hp : reality <+: sv) :
    expectingToFindInRange range reality fullMessage hint = .ok () := by
  have hany : (range.any fun sv => reality.isPrefixOf sv) = true :=
    List.any_eq_true.mpr ⟨sv, hsv, List.isPrefixOf_iff_prefix.mpr hp⟩
  simp [expectingToFindInRange, findExpected_of_ne_nil hf, hany]

/-! Asking for more data. -/

def Awaiting {α : Type} (x : Parse α) : Prop := ∃ what, x = .error (.expectingData what)

theorem awaiting_bind {α β : Type} {x : Parse α} {f : α → Parse β} :
    Awaiting (x >>= f) ↔ Awaiting x ∨ ∃ a, x = .ok a ∧ Awaiting (f a) := by
  cases x with
  | ok a => simp [Awaiting]
  | error e => simp [Awaiting]

@[simp] theorem not_awaiting_ok {α : Type} (a : α) : ¬ Awaiting (Except.ok a : Parse α) := by
  simp [Awaiting]

@[simp] theorem awaiting_expecting {α : Type} (w : Bytes) :
    Awaiting (Except.error (.expectingData w) : Parse α) := ⟨w, rfl⟩

@[simp] theorem not_awaiting_incorrect {α : Type} (w : Bytes) :
    ¬ Awaiting (Except.error (.incorrectData w) : Parse α) := by
  simp [Awaiting]

@[simp] theorem not_awaiting_undefined {α : Type} :
    ¬ Awaiting (Except.error .undefined : Parse α) := by
  simp [Awaiting]

/-- No entry is a part of another, so that the first match decides. -/
def Antichain (range : List Bytes) : Prop :=
  ∀ a ∈ range, ∀ b ∈ range, a ≠ [] → a <+: b → a = b

theorem findExpected_awaiting {range : List Bytes} (ha : Antichain range)
    (reality fullMessage hint : Bytes) :
    Awaiting (findExpected reality fullMessage hint range) ↔
      fullMessage = [] ∧ reality ≠ [] ∧ reality ∉ range ∧ ∃ sv ∈ range, reality <+: sv := by
  induction range with
  | nil => simp [findExpected]
  | cons sv range ih =>
    have hrange := ih fun a ha' b hb' => ha a (List.mem_cons_of_mem _ ha') b
      (List.mem_cons_of_mem _ hb')
    rw [findExpected, expecting_eq]
    by_cases hp : reality <+: sv
    · by_cases hc : reality ≠ [] ∧ reality <+: sv ∧ reality ≠ sv ∧ fullMessage = []
      · rw [if_pos hc, error_bind]
        refine ⟨fun _ => ⟨hc.2.2.2, hc.1, ?_, sv, by simp, hp⟩, fun _ => ⟨_, rfl⟩⟩
        intro hmem
        exact hc.2.2.1 (ha reality hmem sv (by simp) hc.1 hp)
      · rw [if_neg hc, ok_bind, if_pos ((mismatch_eq_length_iff _ _).mpr hp)]
        refine ⟨fun h => absurd h (not_awaiting_ok _), ?_⟩
        rintro ⟨hf, hne, hmem, -⟩
        exact absurd ⟨hne, hp, fun he => hmem (he ▸ by simp), hf⟩ hc
    · have hm : mismatch sv reality ≠ reality.length := mt (mismatch_eq_length_iff _ _).mp hp
      have hne : reality ≠ sv := fun he => hp (he ▸ List.prefix_refl _)
      rw [if_neg (fun h => hp h.2.1), ok_bind, if_neg hm, hrange]
      simp [hp, hne]

theorem expectingToFindInRange_awaiting {range : List Bytes} (ha : Antichain range)
    (reality fullMessage hint : Bytes) :
    Awaiting (expectingToFindInRange range reality fullMessage hint) ↔
      fullMessage = [] ∧ reality ≠ [] ∧ reality ∉ range ∧ ∃ sv ∈ range, reality <+: sv := by
  rw [← findExpected_awaiting ha reality fullMessage hint, expectingToFindInRange, awaiting_bind]
  refine or_iff_left ?_
  rintro ⟨b, -, hb⟩
  cases b <;> simp at hb

end Sphere.Http
