import Mathlib.Data.List.Infix
import Mathlib.Tactic

/-! Searching a list for a pattern and cutting it at a class of elements. `find`
returns the first position of a pattern; for a two-element pattern of distinct
elements the cut is unique, so a text assembled from parts without the pattern
is taken apart again at exactly the same places. -/

namespace Lib.Search

variable {α : Type*}

/-! Cutting at the first element of a class. -/

theorem findIdx?_append_of_not {p : α → Bool} {a b : List α} (ha : ∀ c ∈ a, p c = false)
    (hb : ∀ c ∈ b.head?, p c = true) :
    (a ++ b).findIdx? p = if b = [] then none else some a.length := by
  have hnone : a.findIdx? p = none := by
    rw [List.findIdx?_eq_none_iff]
    exact ha
  cases b with
  | nil => simpa using ha
  | cons c b =>
    have hc : p c = true := hb c (by simp)
    simp [List.findIdx?_append, hnone, List.findIdx?_cons, hc]

theorem exists_cut (p : α → Bool) (l : List α) :
    ∃ a b, l = a ++ b ∧ (∀ c ∈ a, p c = false) ∧ ∀ c ∈ b.head?, p c = true := by
  induction l with
  | nil => exact ⟨[], [], rfl, by simp, by simp⟩
  | cons c l ih =>
    cases hc : p c with
    | true => exact ⟨[], c :: l, rfl, by simp, by simp [hc]⟩
    | false =>
      obtain ⟨a, b, rfl, ha, hb⟩ := ih
      refine ⟨c :: a, b, rfl, ?_, hb⟩
      intro d hd
      rcases List.mem_cons.mp hd with rfl | hd
      · exact hc
      · exact ha d hd

theorem pair_infix_append_iff {x y : α} {b : List α} (hb : y ∉ b) (a : List α) :
    [x, y] <:+: a ++ b ↔ [x, y] <:+: a := by
  refine ⟨fun h => ?_, fun h => List.infix_append_of_infix_left h⟩
  induction a with
  | nil => exact absurd (h.subset (by simp)) hb
  | cons c a ih =>
    rw [List.cons_append, List.infix_cons_iff] at h
    rcases h with h | h
    · obtain ⟨rfl, hy⟩ := List.cons_prefix_cons.mp h
      cases a with
      | nil =>
        have hmem : y ∈ [] ++ b := hy.subset (List.mem_singleton_self y)
        exact absurd hmem hb
      | cons d a =>
        obtain ⟨rfl, -⟩ := List.cons_prefix_cons.mp hy
        exact List.IsPrefix.isInfix ⟨a, rfl⟩
    · exact List.infix_cons (ih h)

/-- The pair does not start before it is there. -/
theorem pair_not_at_front {x y c : α} (hxy : x ≠ y) {a : List α} (b : List α)
    (ha : ¬ [x, y] <:+: c :: a) : ¬ [x, y] <+: c :: (a ++ x :: y :: b) := by
  intro h
  cases a with
  | nil =>
    simp only [List.nil_append, List.cons_prefix_cons] at h
    exact hxy h.2.1.symm
  | cons d a =>
    simp only [List.cons_append, List.cons_prefix_cons, List.nil_prefix, and_true] at h
    obtain ⟨rfl, rfl⟩ := h
    exact ha ⟨[], a, by simp⟩

/-- An occurrence of the pair starts no earlier than the first one. -/
theorem length_le_of_pair_at {x y : α} (hxy : x ≠ y) {a b : List α} {i : ℕ}
    (ha : ¬ [x, y] <:+: a) (h : [x, y] <+: (a ++ x :: y :: b).drop i) : a.length ≤ i := by
  induction a generalizing i with
  | nil => exact Nat.zero_le i
  | cons c a ih =>
    have ha' : ¬ [x, y] <:+: a := fun h => ha (List.infix_cons_iff.mpr (.inr h))
    cases i with
    | zero => exact absurd h (pair_not_at_front hxy b ha)
    | succ i => exact Nat.succ_le_succ (ih ha' h)

section Find

variable [DecidableEq α]

/-- First position at which `pat` occurs in the list, if any. -/
def find (pat : List α) : List α → Option ℕ
  | [] => if pat = [] then some 0 else none
  | c :: l => if pat.isPrefixOf (c :: l) then some 0 else (find pat l).map (· + 1)

theorem find_eq_none_iff (pat l : List α) : find pat l = none ↔ ¬ pat <:+: l := by
  induction l with
  | nil => by_cases h : pat = [] <;> simp [find, h]
  | cons c l ih =>
    by_cases h : pat.isPrefixOf (c :: l)
    · have hp : pat <:+: c :: l := (List.isPrefixOf_iff_prefix.mp h).isInfix
      simp [find, h, hp]
    · have hp : ¬ pat <+: c :: l := fun hh => h (List.isPrefixOf_iff_prefix.mpr hh)
      simp [find, h, hp, ih, List.infix_cons_iff]

theorem find_some_prefix {pat l : List α} {n : ℕ} (h : find pat l = some n) :
    ∃ a b, l = a ++ pat ++ b ∧ a.length = n := by
  induction l generalizing n with
  | nil =>
    by_cases hp : pat = []
    · simp only [find, hp, if_true, Option.some.injEq] at h
      exact ⟨[], [], by simp [hp], by simp [h]⟩
    · simp [find, hp] at h
  | cons c l ih =>
    by_cases hp : pat.isPrefixOf (c :: l)
    · simp only [find, hp, if_true, Option.some.injEq] at h
      obtain ⟨b, hb⟩ := List.isPrefixOf_iff_prefix.mp hp
      exact ⟨[], b, by simp [hb], by simp [h]⟩
    · simp only [find, hp, Bool.false_eq_true, if_false, Option.map_eq_some_iff] at h
      obtain ⟨m, hm, rfl⟩ := h
      obtain ⟨a, b, hl, ha⟩ := ih hm
      exact ⟨c :: a, b, by simp [hl], by simp [ha]⟩

theorem find_zero_iff {pat l : List α} : find pat l = some 0 ↔ pat <+: l := by
  constructor
  · intro h
    obtain ⟨a, b, rfl, ha⟩ := find_some_prefix h
    rw [List.length_eq_zero_iff.mp ha]
    simp
  · intro h
    cases l with
    | nil => simp [find, List.prefix_nil.mp h]
    | cons c l => simp [find, List.isPrefixOf_iff_prefix.mpr h]

/-- How often the pattern, which is not empty, occurs. -/
def count (pat : List α) : List α → ℕ
  | [] => 0
  | c :: l => count pat l + if pat.isPrefixOf (c :: l) then 1 else 0

/-! Two-element patterns, such as a line terminator. -/

theorem find_pair_append {x y : α} (hxy : x ≠ y) {a : List α} (b : List α)
    (ha : ¬ [x, y] <:+: a) : find [x, y] (a ++ x :: y :: b) = some a.length := by
  induction a with
  | nil => simp [find]
  | cons c a ih =>
    have ha' : ¬ [x, y] <:+: a := fun h => ha (List.infix_cons_iff.mpr (.inr h))
    have hp : ¬ ([x, y].isPrefixOf (c :: (a ++ x :: y :: b)) = true) :=
      fun h => pair_not_at_front hxy b ha (List.isPrefixOf_iff_prefix.mp h)
    rw [List.cons_append, find, if_neg hp, ih ha']
    simp

/-- Behind a part without the pair it occurs once more. -/
theorem count_pair_append {x y : α} (hxy : x ≠ y) {a : List α} (b : List α)
    (ha : ¬ [x, y] <:+: a) : count [x, y] (a ++ x :: y :: b) = count [x, y] b + 1 := by
  induction a with
  | nil => simp [count, hxy]
  | cons c a ih =>
    have ha' : ¬ [x, y] <:+: a := fun h => ha (List.infix_cons_iff.mpr (.inr h))
    have hp : ¬ ([x, y].isPrefixOf (c :: (a ++ x :: y :: b)) = true) :=
      fun h => pair_not_at_front hxy b ha (List.isPrefixOf_iff_prefix.mp h)
    rw [List.cons_append, count, if_neg hp, ih ha']

theorem find_pair_some {x y : α} {l : List α} {n : ℕ}
    (h : find [x, y] l = some n) :
    ∃ a b, l = a ++ x :: y :: b ∧ a.length = n ∧ ¬ [x, y] <:+: a := by
  induction l generalizing n with
  | nil => simp [find] at h
  | cons c l ih =>
    by_cases hp : [x, y].isPrefixOf (c :: l)
    · simp only [find, hp, if_true, Option.some.injEq] at h
      obtain ⟨b, hb⟩ := List.isPrefixOf_iff_prefix.mp hp
      exact ⟨[], b, by simpa using hb.symm, by simp [h], by simp⟩
    · simp only [find, hp, Bool.false_eq_true, if_false, Option.map_eq_some_iff] at h
      obtain ⟨m, hm, rfl⟩ := h
      obtain ⟨a, b, rfl, ha, hno⟩ := ih hm
      refine ⟨c :: a, b, rfl, by simp [ha], ?_⟩
      rw [List.infix_cons_iff]
      rintro (hpre | hin)
      · obtain ⟨t, ht⟩ := hpre
        apply hp
        rw [List.isPrefixOf_iff_prefix]
        exact ⟨t ++ x :: y :: b, by rw [← List.append_assoc, ht]; simp⟩
      · exact hno hin

/-- The cut at the first occurrence of the pair is unique. -/
theorem pair_cut_unique {x y : α} (hxy : x ≠ y) {a a' b b' : List α}
    (ha : ¬ [x, y] <:+: a) (ha' : ¬ [x, y] <:+: a')
    (h : a ++ x :: y :: b = a' ++ x :: y :: b') : a = a' ∧ b = b' := by
  have hlen : a.length = a'.length := by
    have h1 := find_pair_append hxy b ha
    rw [h, find_pair_append hxy b' ha'] at h1
    exact (Option.some.inj h1).symm
  obtain ⟨h1, h2⟩ := List.append_inj h hlen
  simp only [List.cons.injEq, true_and] at h2
  exact ⟨h1, h2⟩

end Find

end Lib.Search
