import Mathlib.Tactic

/-! A server that answers one request after another on one stream: it hears what comes until
that is a request, tells the whole answer, and then hears again or is done. -/

namespace Lib.Conversation

variable {α Q R : Type*}

/-- What is heard so far is a request, may become one, or will not be answered. -/
inductive Verdict (Q : Type*)
  | complete (q : Q)
  | incomplete
  | refused
  deriving DecidableEq, Repr

/-- `keeps` is whether the conversation goes on behind the answer. -/
structure Rules (α Q R : Type*) where
  judge : List α → Verdict Q
  text : R → List α
  keeps : Q → Bool

inductive Phase (α : Type*)
  | hearing (heard : List α)
  | telling (left : List α) (keeps : Bool)
  | ended (left : List α)
  deriving DecidableEq, Repr

/-- `received` is all that was heard, `sent` all that was told. -/
structure Talk (α : Type*) where
  received : List α
  sent : List α
  phase : Phase α
  deriving DecidableEq, Repr

/-- The stream has no more for now, or it fails: the server gives the conversation up, or stops
altogether. -/
inductive Ending
  | blocks
  | closes
  | throws
  deriving DecidableEq, Repr

/-- What the stream brings, or how much of an answer it takes. -/
inductive Input (α : Type*)
  | bring (bytes : List α) (e : Ending)
  | take (n : ℕ) (e : Ending)
  deriving DecidableEq, Repr

/-- What has yet to be told. -/
def Phase.left : Phase α → List α
  | .hearing _ => []
  | .telling left _ => left
  | .ended left => left

def Phase.isOpen : Phase α → Bool
  | .ended _ => false
  | _ => true

namespace Talk

def start : Talk α := ⟨[], [], .hearing []⟩

variable (rules : Rules α Q R) (f : Q → R)

/-- What the server does with what it has heard. -/
def judged (heard : List α) : Verdict Q → Phase α
  | .complete q => .telling (rules.text (f q)) (rules.keeps q)
  | .incomplete => .hearing heard
  | .refused => .ended []

def heardMore (heard : List α) : Ending → Phase α
  | .blocks => judged rules f heard (rules.judge heard)
  | .closes => .ended []
  | .throws => .hearing heard

/-- Behind a part of an answer. -/
def toldMore (left : List α) (keeps : Bool) (e : Ending) : Phase α :=
  if left = [] then if keeps then .hearing [] else .ended []
  else if e = .closes then .ended left
  else .telling left keeps

def step (t : Talk α) : Input α → Talk α
  | .bring bytes e =>
    match t.phase with
    | .hearing heard => ⟨t.received ++ bytes, t.sent, heardMore rules f (heard ++ bytes) e⟩
    | _ => t
  | .take n e =>
    match t.phase with
    | .telling left keeps => ⟨t.received, t.sent ++ left.take n, toldMore (left.drop n) keeps e⟩
    | _ => t

/-- The requests that were heard, each the text and what it is, and the text behind them. What
was told are the answers to them in order, but for what is left; only behind the last of them
may the conversation be over. -/
structure Accounts (t : Talk α) (exchanges : List (List α × Q)) (rest : List α) : Prop where
  received : t.received = (exchanges.map Prod.fst).flatten ++ rest
  complete : ∀ e ∈ exchanges, rules.judge e.1 = .complete e.2
  sent : t.sent ++ t.phase.left = (exchanges.map fun e => rules.text (f e.2)).flatten
  kept : ∀ e ∈ exchanges.dropLast, rules.keeps e.2
  hearing : ∀ heard, t.phase = .hearing heard → rest = heard ∧ ∀ e ∈ exchanges, rules.keeps e.2
  telling : ∀ left keeps, t.phase = .telling left keeps →
    rest = [] ∧ ∀ e ∈ exchanges.getLast?, rules.keeps e.2 = keeps

variable {rules f}

theorem Accounts.start : Accounts rules f (start : Talk α) [] [] :=
  ⟨rfl, by simp, rfl, by simp, fun heard h => ⟨Phase.hearing.inj h, by simp⟩, nofun⟩

variable {t : Talk α} {exchanges : List (List α × Q)} {rest : List α}

theorem Accounts.bring (h : Accounts rules f t exchanges rest) (bytes : List α) (e : Ending) :
    ∃ exchanges' rest', exchanges <+: exchanges' ∧
      Accounts rules f (t.step rules f (.bring bytes e)) exchanges' rest' := by
  cases hphase : t.phase with
  | hearing heard =>
    obtain ⟨rfl, hkept⟩ := h.hearing heard hphase
    have hsent := h.sent
    rw [hphase] at hsent
    have hreceived : t.received ++ bytes =
        (exchanges.map Prod.fst).flatten ++ (rest ++ bytes) := by
      rw [h.received, List.append_assoc]
    -- no request yet, and none to come where it has ended
    have hsame : ∀ phase, phase.left = [] → (∀ heard, phase = .hearing heard →
        heard = rest ++ bytes) → (∀ left keeps, phase ≠ .telling left keeps) →
        Accounts rules f ⟨t.received ++ bytes, t.sent, phase⟩ exchanges (rest ++ bytes) := by
      intro phase hleft hhearing htelling
      refine ⟨hreceived, h.complete, ?_, h.kept, fun heard hp => ?_, fun left keeps hp => ?_⟩
      · rw [hleft]
        exact hsent
      · exact ⟨(hhearing heard hp).symm, hkept⟩
      · exact absurd hp (htelling left keeps)
    simp only [step, hphase]
    cases e with
    | blocks =>
      cases hj : rules.judge (rest ++ bytes) with
      | complete q =>
        refine ⟨exchanges ++ [(rest ++ bytes, q)], [], List.prefix_append _ _, ?_⟩
        simp only [heardMore, hj, judged]
        refine ⟨?_, ?_, ?_, ?_, nofun, fun left keeps hp => ⟨rfl, ?_⟩⟩
        · simpa using hreceived
        · intro e he
          rcases List.mem_append.mp he with he | he
          · exact h.complete e he
          · obtain rfl := List.mem_singleton.mp he
            exact hj
        · simp only [Phase.left, List.append_nil] at hsent ⊢
          simp [hsent]
        · simpa using hkept
        · simpa using (Phase.telling.inj hp).2
      | incomplete =>
        refine ⟨exchanges, rest ++ bytes, List.prefix_rfl, ?_⟩
        simp only [heardMore, hj, judged]
        exact hsame _ rfl (fun _ hp => (Phase.hearing.inj hp).symm) nofun
      | refused =>
        refine ⟨exchanges, rest ++ bytes, List.prefix_rfl, ?_⟩
        simp only [heardMore, hj, judged]
        exact hsame _ rfl nofun nofun
    | closes => exact ⟨exchanges, _, List.prefix_rfl, hsame _ rfl nofun nofun⟩
    | throws =>
      exact ⟨exchanges, _, List.prefix_rfl,
        hsame _ rfl (fun _ hp => (Phase.hearing.inj hp).symm) nofun⟩
  | _ =>
    refine ⟨exchanges, rest, List.prefix_rfl, ?_⟩
    simpa only [step, hphase] using h

theorem Accounts.take (h : Accounts rules f t exchanges rest) (n : ℕ) (e : Ending) :
    Accounts rules f (t.step rules f (.take n e)) exchanges rest := by
  cases hphase : t.phase with
  | telling left keeps =>
    obtain ⟨rfl, hlast⟩ := h.telling left keeps hphase
    have hsent : t.sent ++ left.take n ++ left.drop n =
        (exchanges.map fun e => rules.text (f e.2)).flatten := by
      rw [List.append_assoc, List.take_append_drop, ← h.sent, hphase]
      rfl
    simp only [step, hphase]
    unfold toldMore
    split_ifs with hleft hkeeps hcloses
    · rw [hleft] at hsent
      refine ⟨h.received, h.complete, hsent, h.kept, fun heard hp => ⟨Phase.hearing.inj hp, ?_⟩,
        nofun⟩
      intro e he
      rcases List.eq_nil_or_concat exchanges with rfl | ⟨before, last, rfl⟩
      · cases he
      · rw [List.concat_eq_append] at he hlast
        have hkept := h.kept
        rw [List.concat_eq_append, List.dropLast_concat] at hkept
        rcases List.mem_append.mp he with he | he
        · exact hkept e he
        · obtain rfl := List.mem_singleton.mp he
          exact (hlast e (by simp)).trans hkeeps
    · rw [hleft] at hsent
      exact ⟨h.received, h.complete, hsent, h.kept, nofun, nofun⟩
    · exact ⟨h.received, h.complete, hsent, h.kept, nofun, nofun⟩
    · refine ⟨h.received, h.complete, hsent, h.kept, nofun, fun left' keeps' hp => ?_⟩
      obtain ⟨-, rfl⟩ := Phase.telling.inj hp
      exact ⟨rfl, hlast⟩
  | _ => simpa only [step, hphase] using h

theorem Accounts.step (h : Accounts rules f t exchanges rest) (i : Input α) :
    ∃ exchanges' rest', exchanges <+: exchanges' ∧
      Accounts rules f (t.step rules f i) exchanges' rest' := by
  cases i with
  | bring bytes e => exact h.bring bytes e
  | take n e => exact ⟨exchanges, rest, List.prefix_rfl, h.take n e⟩

end Talk

end Lib.Conversation
