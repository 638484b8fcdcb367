import Mathlib.Data.List.Count
import Mathlib.Tactic

/-! Segments of a table of cells. The state of an allocator is a table and a list of
segments such that each marked cell is covered by exactly one of them; it is changed one
cell at a time, and `memset` is a run of such changes. -/

namespace Lib

structure Segment where
  start : ℕ
  len : ℕ
  deriving DecidableEq, Repr

namespace Segment

instance : Membership ℕ Segment := ⟨fun s i => s.start ≤ i ∧ i < s.start + s.len⟩

theorem mem_iff {s : Segment} {i : ℕ} : i ∈ s ↔ s.start ≤ i ∧ i < s.start + s.len := Iff.rfl

instance (s : Segment) (i : ℕ) : Decidable (i ∈ s) :=
  inferInstanceAs (Decidable (s.start ≤ i ∧ i < s.start + s.len))

def Disjoint (s t : Segment) : Prop := ∀ i ∈ s, i ∉ t

/-- How many of the segments cell `i` is in. -/
def cover (segs : List Segment) (i : ℕ) : ℕ := segs.countP (i ∈ ·)

@[simp] theorem cover_nil (i : ℕ) : cover [] i = 0 := rfl

@[simp] theorem cover_cons (s : Segment) (segs : List Segment) (i : ℕ) :
    cover (s :: segs) i = cover segs i + if i ∈ s then 1 else 0 := by
  simp [cover, List.countP_cons]

@[simp] theorem cover_append (segs segs' : List Segment) (i : ℕ) :
    cover (segs ++ segs') i = cover segs i + cover segs' i :=
  List.countP_append

theorem cover_eq_zero_iff {segs : List Segment} {i : ℕ} :
    cover segs i = 0 ↔ ∀ s ∈ segs, i ∉ s := by
  simp [cover, List.countP_eq_zero]

theorem cover_perm {segs segs' : List Segment} (h : segs.Perm segs') (i : ℕ) :
    cover segs i = cover segs' i :=
  h.countP_eq _

theorem cover_set {segs : List Segment} {p : ℕ} {s : Segment} (h : segs[p]? = some s)
    (s' : Segment) (i : ℕ) :
    cover (segs.set p s') i + (if i ∈ s then 1 else 0)
      = cover segs i + if i ∈ s' then 1 else 0 := by
  induction segs generalizing p with
  | nil => simp at h
  | cons t segs ih =>
    cases p with
    | zero =>
      obtain rfl : t = s := by simpa using h
      rw [List.set_cons_zero, cover_cons, cover_cons]
      omega
    | succ p =>
      have hp := ih (by simpa using h)
      rw [List.set_cons_succ, cover_cons, cover_cons]
      omega

/-- Segments that cover no cell twice are pairwise disjoint. -/
theorem pairwise_disjoint {segs : List Segment} (h : ∀ i, cover segs i ≤ 1) :
    segs.Pairwise Disjoint := by
  induction segs with
  | nil => exact .nil
  | cons s segs ih =>
    refine .cons (fun t ht i his hit => ?_) (ih fun i => ?_)
    · have hi := h i
      rw [cover_cons, if_pos his] at hi
      exact cover_eq_zero_iff.mp (by omega) t ht hit
    · have hi := h i
      rw [cover_cons] at hi
      omega

/-! One cell moves into a segment, or out of it. -/

theorem ite_mem_grow (s n i : ℕ) :
    (if i ∈ (⟨s, n + 1⟩ : Segment) then 1 else 0)
      = (if i ∈ (⟨s, n⟩ : Segment) then 1 else 0) + if i = s + n then 1 else 0 := by
  simp only [mem_iff]
  split_ifs <;> omega

theorem ite_mem_shrink (s n i : ℕ) :
    (if i ∈ (⟨s, n + 1⟩ : Segment) then 1 else 0)
      = (if i ∈ (⟨s + 1, n⟩ : Segment) then 1 else 0) + if i = s then 1 else 0 := by
  simp only [mem_iff]
  split_ifs <;> omega

theorem notMem_empty {s i : ℕ} : i ∉ (⟨s, 0⟩ : Segment) := by
  rw [mem_iff]
  dsimp only
  omega

theorem ite_mem_empty (s i : ℕ) : (if i ∈ (⟨s, 0⟩ : Segment) then 1 else 0) = 0 :=
  if_neg notMem_empty

end Segment

open Segment (cover cover_nil cover_cons cover_eq_zero_iff mem_iff ite_mem_grow ite_mem_shrink
  ite_mem_empty pairwise_disjoint)

variable {α : Type*} {used free : α} {t : List α} {segs segs' : List Segment}

/-- Every cell is used or free, and the used ones are covered by one segment each. -/
structure Marks [DecidableEq α] (used free : α) (t : List α) (segs : List Segment) : Prop where
  cells : ∀ c ∈ t, c = used ∨ c = free
  counts : ∀ i, cover segs i = if t[i]? = some used then 1 else 0

section Marks

variable [DecidableEq α]

theorem Marks.fresh (hne : used ≠ free) (n : ℕ) :
    Marks used free (List.replicate n free) [] := by
  refine ⟨fun c hc => .inr (List.eq_of_mem_replicate hc), fun i => ?_⟩
  rw [cover_nil, if_neg]
  intro h
  exact hne (List.eq_of_mem_replicate (List.mem_of_getElem? h))

theorem Marks.used_iff (h : Marks used free t segs) (i : ℕ) :
    t[i]? = some used ↔ ∃ s ∈ segs, i ∈ s := by
  have hi := h.counts i
  constructor
  · intro hu
    rw [if_pos hu] at hi
    by_contra hno
    push Not at hno
    rw [cover_eq_zero_iff.mpr hno] at hi
    omega
  · rintro ⟨s, hs, his⟩
    by_contra hu
    rw [if_neg hu, cover_eq_zero_iff] at hi
    exact hi s hs his

theorem Marks.lt_length (h : Marks used free t segs) {s : Segment} (hs : s ∈ segs) {i : ℕ}
    (hi : i ∈ s) : i < t.length :=
  (List.getElem?_eq_some_iff.mp ((h.used_iff i).mpr ⟨s, hs, hi⟩)).1

theorem Marks.pairwise (h : Marks used free t segs) : segs.Pairwise Segment.Disjoint := by
  refine pairwise_disjoint fun i => ?_
  rw [h.counts i]
  split_ifs <;> omega

/-- What a table in order holds at each place. -/
theorem Marks.getElem? (h : Marks used free t segs) {i : ℕ} (hi : i < t.length) :
    t[i]? = some (if ∃ s ∈ segs, i ∈ s then used else free) := by
  split_ifs with hcov
  · exact (h.used_iff i).mpr hcov
  · rw [← h.used_iff, List.getElem?_eq_getElem hi, Option.some.injEq] at hcov
    rw [List.getElem?_eq_getElem hi]
    exact congrArg some ((h.cells _ (List.getElem_mem hi)).resolve_left hcov)

theorem Marks.congr (h : Marks used free t segs) (hc : ∀ i, cover segs' i = cover segs i) :
    Marks used free t segs' :=
  ⟨h.cells, fun i => (hc i).trans (h.counts i)⟩

/-- The step lemma: one cell is written, and the segments change at that cell only. -/
theorem Marks.set_used (h : Marks used free t segs) {k : ℕ} (hk : k < t.length)
    (hc : ∀ i, cover segs' i = if i = k then 1 else cover segs i) :
    Marks used free (t.set k used) segs' := by
  refine ⟨fun c hm => ?_, fun i => ?_⟩
  · obtain hm | rfl := List.mem_or_eq_of_mem_set hm
    · exact h.cells c hm
    · exact .inl rfl
  · rw [hc i, List.getElem?_set]
    by_cases hik : i = k
    · simp [hik, hk]
    · rw [if_neg hik, if_neg (Ne.symm hik), h.counts i]

theorem Marks.set_free (h : Marks used free t segs) (hne : used ≠ free) {k : ℕ}
    (hc : ∀ i, cover segs' i = if i = k then 0 else cover segs i) :
    Marks used free (t.set k free) segs' := by
  refine ⟨fun c hm => ?_, fun i => ?_⟩
  · obtain hm | rfl := List.mem_or_eq_of_mem_set hm
    · exact h.cells c hm
    · exact .inr rfl
  · rw [hc i, List.getElem?_set]
    by_cases hik : i = k
    · rw [if_pos hik, if_pos hik.symm]
      split_ifs <;> simp_all
    · rw [if_neg hik, if_neg (Ne.symm hik), h.counts i]

/-- A free cell is marked for a segment that grows by it. -/
theorem Marks.mark (h : Marks used free t (⟨s, n⟩ :: segs)) (hne : used ≠ free)
    (hf : t[s + n]? = some free) :
    Marks used free (t.set (s + n) used) (⟨s, n + 1⟩ :: segs) := by
  refine h.set_used (List.getElem?_eq_some_iff.mp hf).1 fun i => ?_
  rw [cover_cons, ite_mem_grow, ← Nat.add_assoc, ← cover_cons]
  split_ifs with hi
  · have h0 := h.counts (s + n)
    rw [hf, if_neg (by simpa using hne.symm)] at h0
    rw [hi, h0]
  · rfl

/-- A segment gives up its first cell. -/
theorem Marks.clear (h : Marks used free t (⟨s, n + 1⟩ :: segs)) (hne : used ≠ free) :
    Marks used free (t.set s free) (⟨s + 1, n⟩ :: segs) := by
  refine h.set_free hne fun i => ?_
  have hi := h.counts i
  rw [cover_cons, ite_mem_shrink] at hi
  rw [cover_cons, cover_cons, ite_mem_shrink]
  split_ifs at hi ⊢ <;> omega

end Marks

/-- `memset(t + s, v, n)`, cell by cell. -/
def memset (t : List α) (s : ℕ) (v : α) : ℕ → List α
  | 0 => t
  | n + 1 => (memset t s v n).set (s + n) v

@[simp] theorem length_memset (t : List α) (s : ℕ) (v : α) (n : ℕ) :
    (memset t s v n).length = t.length := by
  induction n with
  | zero => rfl
  | succ n ih => rw [memset, List.length_set, ih]

theorem getElem?_memset_of_notMem {s n i : ℕ} (v : α) (hi : i ∉ (⟨s, n⟩ : Segment)) :
    (memset t s v n)[i]? = t[i]? := by
  induction n with
  | zero => rfl
  | succ n ih =>
    rw [mem_iff] at hi
    rw [memset, List.getElem?_set_ne (by dsimp only at hi; omega), ih]
    rw [mem_iff]
    dsimp only at hi ⊢
    omega

variable [DecidableEq α]

theorem Marks.memset_used (h : Marks used free t segs) (hne : used ≠ free) {s n : ℕ}
    (hf : ∀ i ∈ (⟨s, n⟩ : Segment), t[i]? = some free) :
    Marks used free (memset t s used n) (⟨s, n⟩ :: segs) := by
  induction n with
  | zero => exact h.congr fun i => by rw [cover_cons, ite_mem_empty, Nat.add_zero]
  | succ n ih =>
    have hprev := ih fun i hi => hf i (by rw [mem_iff] at hi ⊢; dsimp only at hi ⊢; omega)
    refine hprev.mark hne ?_
    rw [getElem?_memset_of_notMem used (by rw [mem_iff]; dsimp only; omega)]
    exact hf _ (by rw [mem_iff]; dsimp only; omega)

theorem Marks.memset_free (h : Marks used free t (⟨s, n⟩ :: segs)) (hne : used ≠ free) :
    Marks used free (memset t s free n) segs := by
  -- after `k` cells the segment that is left starts at `s + k`
  have hrun : ∀ k ≤ n, Marks used free (memset t s free k) (⟨s + k, n - k⟩ :: segs) := by
    intro k
    induction k with
    | zero => exact fun _ => h
    | succ k ih =>
      intro hk
      have hprev := ih (by omega)
      rw [show n - k = n - (k + 1) + 1 by omega] at hprev
      exact hprev.clear hne
  refine (hrun n le_rfl).congr fun i => ?_
  rw [Nat.sub_self, cover_cons, ite_mem_empty, Nat.add_zero]

end Lib
