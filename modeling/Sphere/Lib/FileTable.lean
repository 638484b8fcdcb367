import Mathlib.Tactic

/-! A process's table of descriptors: the lowest free number is given out, `dup2` replaces what a
number stands for, and `exec` closes what is marked. -/

namespace Lib.FileTable

variable {F : Type*}

structure Entry (F : Type*) where
  file : F
  cloexec : Bool
  deriving DecidableEq, Repr

abbrev Table (F : Type*) := ℕ → Option (Entry F)

inductive Call
  | dup2 (old new : ℕ)
  | close (fd : ℕ)
  | exec
  deriving DecidableEq, Repr

namespace Table

/-- No descriptor. -/
def none : Table F := fun _ => .none

def put (t : Table F) (fd : ℕ) (e : Entry F) : Table F := Function.update t fd (some e)

def close (t : Table F) (fd : ℕ) : Table F := Function.update t fd .none

/-- A descriptor that is open under its own number is left as it is. -/
def dup2 (t : Table F) (old new : ℕ) : Option (Table F) :=
  (t old).map fun e =>
    if old = new then t else t.put new { e with cloexec := false }

def exec (t : Table F) : Table F := fun fd => (t fd).filter (!·.cloexec)

def call (t : Table F) : Call → Option (Table F)
  | .dup2 old new => t.dup2 old new
  | .close fd => some (t.close fd)
  | .exec => some t.exec

/-- The number that the kernel gives out. -/
def Lowest (t : Table F) (fd : ℕ) : Prop := t fd = .none ∧ ∀ n < fd, (t n).isSome

/-- The process has the file open. -/
def Has (t : Table F) (f : F) : Prop := ∃ fd e, t fd = some e ∧ e.file = f

instance (t : Table F) (fd : ℕ) : Decidable (t.Lowest fd) :=
  inferInstanceAs (Decidable (_ ∧ _))

variable {t : Table F} {fd n : ℕ} {e e' : Entry F}

theorem put_eq_some : (t.put fd e) n = some e' ↔ n = fd ∧ e = e' ∨ n ≠ fd ∧ t n = some e' := by
  unfold put
  rw [Function.update_apply]
  split_ifs with h <;> simp [h]

theorem close_eq_some : (t.close fd) n = some e ↔ n ≠ fd ∧ t n = some e := by
  unfold close
  rw [Function.update_apply]
  split_ifs with h <;> simp [h]

/-- `dup2` of a descriptor that is open changes the new number only. -/
theorem dup2_of {old : ℕ} (h : t old = some e) (new : ℕ) : ∃ t', t.dup2 old new = some t' ∧
    (∀ n, n ≠ new → t' n = t n) ∧ (old ≠ new → t' new = some { e with cloexec := false }) ∧
    (old = new → t' = t) := by
  unfold dup2
  rw [h]
  by_cases hne : old = new
  · exact ⟨t, by simp [hne], fun _ _ => rfl, fun hno => absurd hne hno, fun _ => rfl⟩
  · refine ⟨t.put new { e with cloexec := false }, by simp [hne], fun n hn => ?_, fun _ => ?_,
      fun he => absurd he hne⟩
    · exact Function.update_of_ne hn ..
    · exact Function.update_self ..

theorem close_of_ne (h : n ≠ fd) : t.close fd n = t n := Function.update_of_ne h ..

@[simp] theorem close_self : t.close fd fd = .none := Function.update_self ..

theorem Lowest.le_of_free (h : t.Lowest fd) (hn : t n = .none) : fd ≤ n := by
  by_contra hlt
  have hsome := h.2 n (by omega)
  rw [hn] at hsome
  cases hsome

end Table

end Lib.FileTable
