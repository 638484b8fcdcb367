import Mathlib.Tactic

/-! Runs of a system given by a partial step function, and the rules for them: what one
step preserves a run preserves, and two conditions on steps that agree under an invariant
agree along a run. A run may be restricted to actions that meet a condition on the state
they are taken in. -/

namespace Lib.Transition

variable {σ α : Type*}

/-- The state a list of actions leads to, `none` where one of them is not enabled. -/
def run (step : σ → α → Option σ) : σ → List α → Option σ
  | s, [] => some s
  | s, a :: as => (step s a).bind fun s' => run step s' as

/-- Each action of a run meets the condition in the state it is taken in. -/
def Along (step : σ → α → Option σ) (meets : σ → α → Prop) : σ → List α → Prop
  | _, [] => True
  | s, a :: as => meets s a ∧ (step s a).elim True fun s' => Along step meets s' as

variable {step : σ → α → Option σ} {meets : σ → α → Prop}

instance decidableAlong [∀ s a, Decidable (meets s a)] :
    ∀ (s : σ) (as : List α), Decidable (Along step meets s as)
  | _, [] => .isTrue trivial
  | s, a :: as =>
    have : Decidable ((step s a).elim True fun s' => Along step meets s' as) :=
      match step s a with
      | none => .isTrue trivial
      | some s' => decidableAlong s' as
    inferInstanceAs (Decidable (_ ∧ _))

theorem run_cons_some {s t : σ} {a : α} {as : List α} (h : run step s (a :: as) = some t) :
    ∃ s', step s a = some s' ∧ run step s' as = some t := by
  simpa [run, Option.bind_eq_some_iff] using h

theorem Along.tail {s s' : σ} {a : α} {as : List α} (h : Along step meets s (a :: as))
    (hs : step s a = some s') : Along step meets s' as := by
  have h2 := h.2
  rwa [hs] at h2

/-- A condition on the actions alone. -/
theorem Along.of_forall {wanted : α → Prop} {s : σ} {as : List α} (h : ∀ a ∈ as, wanted a) :
    Along step (fun _ => wanted) s as := by
  induction as generalizing s with
  | nil => trivial
  | cons a as ih =>
    refine ⟨h a List.mem_cons_self, ?_⟩
    cases step s a with
    | none => trivial
    | some s' => exact ih fun b hb => h b (List.mem_cons_of_mem a hb)

/-- A condition that implies another one under an invariant implies it along a run. -/
theorem Along.imp {I : σ → Prop} {wants : σ → α → Prop}
    (hI : ∀ s a s', I s → meets s a → step s a = some s' → I s')
    (hw : ∀ s a, I s → meets s a → wants s a) {s : σ} {as : List α} (hs : I s)
    (h : Along step meets s as) : Along step wants s as := by
  induction as generalizing s with
  | nil => trivial
  | cons a as ih =>
    refine ⟨hw s a hs h.1, ?_⟩
    cases hstep : step s a with
    | none => trivial
    | some s' => exact ih (hI s a s' hs h.1 hstep) (h.tail hstep)

/-- The part of a run before its last action, and the last action. -/
theorem Along.snoc {s t : σ} {as : List α} {a : α} (h : Along step meets s (as ++ [a]))
    (hr : run step s as = some t) : Along step meets s as ∧ meets t a := by
  induction as generalizing s with
  | nil =>
    obtain rfl : s = t := by simpa [run] using hr
    exact ⟨trivial, h.1⟩
  | cons b as ih =>
    obtain ⟨s', hs, hr⟩ := run_cons_some hr
    obtain ⟨has, ha⟩ := ih (h.tail hs) hr
    refine ⟨⟨h.1, ?_⟩, ha⟩
    rwa [hs]

theorem run_append (s : σ) (as bs : List α) :
    run step s (as ++ bs) = (run step s as).bind fun s' => run step s' bs := by
  induction as generalizing s with
  | nil => rfl
  | cons a as ih => simp [run, Option.bind_assoc, ih]

/-- The invariant rule for runs whose actions meet a condition. -/
theorem run_invariant {I : σ → Prop}
    (hI : ∀ s a s', I s → meets s a → step s a = some s' → I s') {s t : σ} {as : List α}
    (hs : I s) (hc : Along step meets s as) (h : run step s as = some t) : I t := by
  induction as generalizing s with
  | nil => obtain rfl : s = t := by simpa [run] using h
           exact hs
  | cons a as ih =>
    obtain ⟨s', hstep, hrun⟩ := run_cons_some h
    exact ih (hI s a s' hs hc.1 hstep) (hc.tail hstep) hrun

/-- Two conditions that agree under an invariant agree along a run, as long as one of
them is enough to keep the invariant. -/
theorem along_iff {I : σ → Prop} {wants : σ → α → Prop}
    (hI : ∀ s a, I s → (wants s a ↔ meets s a) ∧
      (meets s a → ∀ s', step s a = some s' → I s')) {s : σ} {as : List α} (hs : I s) :
    Along step wants s as ↔ Along step meets s as := by
  induction as generalizing s with
  | nil => exact Iff.rfl
  | cons a as ih =>
    obtain ⟨hiff, hnext⟩ := hI s a hs
    unfold Along
    rw [hiff]
    refine and_congr_right fun hm => ?_
    cases hstep : step s a with
    | none => exact Iff.rfl
    | some s' => exact ih (hnext hm s' hstep)

/-- The same for the actions of a run, each of which is enabled. -/
theorem run_along_iff {I : σ → Prop} {wants : σ → α → Prop}
    (hI : ∀ s a s', I s → step s a = some s' → (wants s a ↔ meets s a) ∧ (meets s a → I s'))
    {s t : σ} {as : List α} (hs : I s) (h : run step s as = some t) :
    Along step wants s as ↔ Along step meets s as := by
  induction as generalizing s with
  | nil => exact Iff.rfl
  | cons a as ih =>
    obtain ⟨s', hstep, hrun⟩ := run_cons_some h
    obtain ⟨hiff, hnext⟩ := hI s a s' hs hstep
    simp only [Along, hstep, Option.elim]
    rw [hiff]
    exact and_congr_right fun hm => ih (hnext hm) hrun

/-- The invariant rule for all runs. -/
theorem run_preserves {I : σ → Prop} (hI : ∀ s a s', I s → step s a = some s' → I s')
    {s t : σ} {as : List α} (hs : I s) (h : run step s as = some t) : I t := by
  induction as generalizing s with
  | nil => obtain rfl : s = t := by simpa [run] using h
           exact hs
  | cons a as ih =>
    obtain ⟨s', hstep, hrun⟩ := run_cons_some h
    exact ih (hI s a s' hs hstep) hrun

end Lib.Transition
