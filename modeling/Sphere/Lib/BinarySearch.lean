import Mathlib.Order.Defs.Unbundled
import Mathlib.Tactic

/-! Binary search by halving. On a strictly sorted list it decides membership;
nothing is assumed of the order beyond what a strict total order gives. -/

namespace Lib.BinarySearch

variable {α : Type*} [LT α] [DecidableLT α]

/-- The halving loop on `[first, first + len)`; `fuel` bounds its rounds. -/
def lowerBound (l : List α) (v : α) : ℕ → ℕ → ℕ → ℕ
  | 0, first, _ => first
  | fuel + 1, first, len =>
    if len = 0 then first
    else
      match l[first + len / 2]? with
      | none => first
      | some x =>
        if x < v then lowerBound l v fuel (first + len / 2 + 1) (len - len / 2 - 1)
        else lowerBound l v fuel first (len / 2)

def binarySearch (l : List α) (v : α) : Bool :=
  match l[lowerBound l v l.length 0 l.length]? with
  | none => false
  | some x => !decide (v < x)

/-- What the loop keeps: everything before the range is below `v`, nothing after it is. -/
structure Brackets (l : List α) (v : α) (lo hi : ℕ) : Prop where
  below : ∀ k x, l[k]? = some x → k < lo → x < v
  above : ∀ k x, l[k]? = some x → hi ≤ k → ¬ x < v

variable [IsTrans α (· < ·)]

theorem lowerBound_brackets {l : List α} (hs : l.Pairwise (· < ·)) (v : α) :
    ∀ fuel first len, len ≤ fuel → first + len ≤ l.length →
      Brackets l v first (first + len) →
      Brackets l v (lowerBound l v fuel first len) (lowerBound l v fuel first len) := by
  have mono {i j : ℕ} {x y : α} (hx : l[i]? = some x) (hy : l[j]? = some y) (hij : i < j) :
      x < y := by
    obtain ⟨hi, rfl⟩ := List.getElem?_eq_some_iff.mp hx
    obtain ⟨hj, rfl⟩ := List.getElem?_eq_some_iff.mp hy
    exact List.pairwise_iff_getElem.mp hs i j hi hj hij
  intro fuel
  induction fuel with
  | zero =>
    intro first len hf _ hb
    obtain rfl : len = 0 := by omega
    exact hb
  | succ fuel ih =>
    intro first len hf hlen hb
    unfold lowerBound
    split_ifs with h0
    · subst h0; exact hb
    · have hm : first + len / 2 < l.length := by omega
      rw [List.getElem?_eq_getElem hm]
      have hmid : l[first + len / 2]? = some l[first + len / 2] := List.getElem?_eq_getElem hm
      dsimp only
      split_ifs with hx
      · apply ih _ _ (by omega) (by omega)
        refine ⟨fun k x hk hlt => ?_, fun k x hk hle => hb.above k x hk (by omega)⟩
        rcases Nat.lt_or_ge k (first + len / 2) with h | h
        · exact IsTrans.trans _ _ _ (mono hk hmid h) hx
        · obtain rfl : k = first + len / 2 := by omega
          rw [hmid] at hk
          exact Option.some.inj hk ▸ hx
      · apply ih _ _ (by omega) (by omega)
        refine ⟨hb.below, fun k x hk hle hxv => ?_⟩
        rcases Nat.lt_or_ge (first + len / 2) k with h | h
        · exact hx (IsTrans.trans _ _ _ (mono hmid hk h) hxv)
        · obtain rfl : k = first + len / 2 := by omega
          rw [hmid] at hk
          exact hx (Option.some.inj hk ▸ hxv)

/-- On a strictly sorted list the search decides membership. -/
theorem binarySearch_iff_mem [Std.Irrefl (α := α) (· < ·)] [Std.Trichotomous (α := α) (· < ·)]
    {l : List α} (hs : l.Pairwise (· < ·)) (v : α) : binarySearch l v = true ↔ v ∈ l := by
  have hb := lowerBound_brackets hs v l.length 0 l.length le_rfl (by omega)
    ⟨fun k x _ h => by omega, fun k x hk h => by
      have := (List.getElem?_eq_some_iff.mp hk).1
      omega⟩
  unfold binarySearch
  set r := lowerBound l v l.length 0 l.length
  constructor
  · intro h
    cases hx : l[r]? with
    | none => simp [hx] at h
    | some x =>
      simp only [hx, Bool.not_eq_true', decide_eq_false_iff_not] at h
      have hv : v = x := Std.Trichotomous.trichotomous v x h (hb.above r x hx le_rfl)
      exact hv ▸ List.mem_of_getElem? hx
  · intro h
    obtain ⟨j, hj⟩ := List.mem_iff_getElem?.mp h
    have h1 : ¬ j < r := fun hlt => Std.Irrefl.irrefl v (hb.below j v hj hlt)
    cases hx : l[r]? with
    | none =>
      have := List.getElem?_eq_none_iff.mp hx
      have := (List.getElem?_eq_some_iff.mp hj).1
      omega
    | some x =>
      simp only [Bool.not_eq_true', decide_eq_false_iff_not]
      intro hlt
      rcases Nat.lt_or_ge r j with h2 | h2
      · obtain ⟨hr, rfl⟩ := List.getElem?_eq_some_iff.mp hx
        obtain ⟨hj', rfl⟩ := List.getElem?_eq_some_iff.mp hj
        have h3 := List.pairwise_iff_getElem.mp hs r j hr hj' h2
        exact Std.Irrefl.irrefl _ (IsTrans.trans _ _ _ hlt h3)
      · obtain rfl : j = r := by omega
        rw [hj] at hx
        obtain rfl : v = x := Option.some.inj hx
        exact Std.Irrefl.irrefl v hlt

end Lib.BinarySearch
