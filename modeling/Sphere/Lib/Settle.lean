import Mathlib.Tactic

/-! A thread left alone with its work: it steps until it is done. The rules say that it is
done within a number of steps, and in what state. -/

namespace Lib.Settle

variable {σ : Type*}

/-- The first state that is done, `none` when there is none within `n` steps. -/
def settle (step : σ → Option σ) (done : σ → Bool) : ℕ → σ → Option σ
  | 0, s => if done s then some s else none
  | n + 1, s => if done s then some s else (step s).bind (settle step done n)

/-- Within `n` steps the work is done, in a state that meets `P`. -/
def Ends (step : σ → Option σ) (done : σ → Bool) (n : ℕ) (s : σ) (P : σ → Prop) : Prop :=
  ∃ t, settle step done n s = some t ∧ P t

variable {step : σ → Option σ} {done : σ → Bool} {n m : ℕ} {s s' t : σ} {P Q : σ → Prop}

theorem settle_of_done (n : ℕ) (h : done s = true) : settle step done n s = some s := by
  cases n <;> simp [settle, h]

theorem ends_done (n : ℕ) (h : done s = true) (hP : P s) : Ends step done n s P :=
  ⟨s, settle_of_done n h, hP⟩

theorem ends_step (hd : done s = false) (hs : step s = some s') (h : Ends step done n s' P) :
    Ends step done (n + 1) s P := by
  obtain ⟨t, ht, hP⟩ := h
  refine ⟨t, ?_, hP⟩
  rw [settle, hd, hs]
  exact ht

theorem settle_mono (h : settle step done n s = some t) (hm : n ≤ m) :
    settle step done m s = some t := by
  induction n generalizing m s with
  | zero =>
    cases hd : done s
    · simp [settle, hd] at h
    · rw [settle_of_done _ hd]
      simpa [settle, hd] using h
  | succ n ih =>
    cases hd : done s
    · obtain ⟨m, rfl⟩ := Nat.exists_eq_succ_of_ne_zero (by omega : m ≠ 0)
      rw [settle, hd] at h ⊢
      simp only [Bool.false_eq_true, if_false, Option.bind_eq_some_iff] at h ⊢
      obtain ⟨s', hs, hrest⟩ := h
      exact ⟨s', hs, ih hrest (by omega)⟩
    · rw [settle_of_done _ hd] at h ⊢
      exact h

/-- More steps do no harm. -/
theorem Ends.mono (h : Ends step done n s P) (hm : n ≤ m) : Ends step done m s P := by
  obtain ⟨t, ht, hP⟩ := h
  exact ⟨t, settle_mono ht hm, hP⟩

theorem Ends.imp (h : Ends step done n s P) (hPQ : ∀ t, P t → Q t) : Ends step done n s Q := by
  obtain ⟨t, ht, hP⟩ := h
  exact ⟨t, ht, hPQ t hP⟩

end Lib.Settle
