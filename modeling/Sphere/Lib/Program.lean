import Mathlib.Tactic

/-! Programs that call an interface, as trees: a call, and what is done for each of its
answers. What a program ensures is computed along the tree from what each call needs and
gives, and an execution that keeps to the contract ends in what was ensured. -/

namespace Lib

inductive Program (C : Type) (R : C → Type) (α : Type)
  | ret (a : α)
  | call (c : C) (k : R c → Program C R α)

/-- What the calls of an interface need of the state, and which answers and states they may
lead to. -/
structure Contract (C : Type) (R : C → Type) (σ : Type*) where
  needs : C → σ → Prop
  gives : (c : C) → σ → R c → σ → Prop

namespace Program

variable {C : Type} {R : C → Type} {α β : Type} {σ : Type*}

def bind : Program C R α → (α → Program C R β) → Program C R β
  | ret a, f => f a
  | call c k, f => call c fun r => (k r).bind f

def perform (c : C) : Program C R (R c) := call c ret

instance : Monad (Program C R) where
  pure := ret
  bind := bind

/-- From the state, every call of the program is given what it needs, and every end is one
that `Q` allows. -/
def wp (I : Contract C R σ) (Q : α → σ → Prop) : Program C R α → σ → Prop
  | ret a, s => Q a s
  | call c k, s => I.needs c s ∧ ∀ r s', I.gives c s r s' → wp I Q (k r) s'

variable {I : Contract C R σ} {Q : α → σ → Prop} {s : σ}

theorem wp_bind {p : Program C R α} {f : α → Program C R β} {Q : β → σ → Prop} :
    wp I Q (p >>= f) s ↔ wp I (fun a => wp I Q (f a)) p s := by
  induction p generalizing s with
  | ret a => rfl
  | call c k ih => exact and_congr_right' (forall₂_congr fun r s' => imp_congr_right fun _ => ih r)

theorem wp_perform {c : C} {Q : R c → σ → Prop} (hn : I.needs c s)
    (hg : ∀ r s', I.gives c s r s' → Q r s') : wp I Q (perform c) s :=
  ⟨hn, hg⟩

/-- One call of an execution. -/
theorem wp_resume {c : C} {k : R c → Program C R α} (h : wp I Q (call c k) s) {r : R c} {s' : σ}
    (hr : I.gives c s r s') : wp I Q (k r) s' :=
  h.2 r s' hr

end Program
end Lib
