import Mathlib.Data.List.Nodup
import Mathlib.Tactic

/-! A linked list whose nodes have names that outlive moves inside the list, the way
an iterator of `std::list` does. A node that is erased never gets its name back, so
an operation can tell whether the iterator it is given still designates a node. -/

namespace Lib

/-- The nodes in order, each a name with its element, and the first unused name. -/
structure NodeList (α : Type*) where
  nodes : List (ℕ × α)
  next : ℕ
  nodup : (nodes.map Prod.fst).Nodup
  fresh : ∀ m ∈ nodes, m.1 < next

namespace NodeList

variable {α : Type*}

def empty : NodeList α := ⟨[], 0, List.nodup_nil, by simp⟩

def front (l : NodeList α) : Option (ℕ × α) := l.nodes.head?

def back (l : NodeList α) : Option (ℕ × α) := l.nodes.getLast?

def Mem (n : ℕ) (x : α) (l : NodeList α) : Prop := (n, x) ∈ l.nodes

def elems (l : NodeList α) : List α := l.nodes.map Prod.snd

/-- The new node is named `l.next`. -/
def pushBack (l : NodeList α) (x : α) : NodeList α where
  nodes := l.nodes ++ [(l.next, x)]
  next := l.next + 1
  nodup := by
    rw [List.map_append, List.nodup_append]
    refine ⟨l.nodup, by simp, fun a ha b hb => ?_⟩
    obtain ⟨m, hm, rfl⟩ := List.mem_map.mp ha
    obtain rfl : b = l.next := by simpa using hb
    exact (l.fresh m hm).ne
  fresh := by
    intro m hm
    obtain hm | hm := List.mem_append.mp hm
    · exact (l.fresh m hm).trans (Nat.lt_succ_self _)
    · obtain rfl : m = (l.next, x) := by simpa using hm
      exact Nat.lt_succ_self _

def popFront (l : NodeList α) : NodeList α where
  nodes := l.nodes.tail
  next := l.next
  nodup := l.nodup.sublist ((List.tail_sublist _).map _)
  fresh := fun m hm => l.fresh m (List.mem_of_mem_tail hm)

/-- Moves the node named `n` to the back; `none` when the list has no such node. -/
def spliceToBack (l : NodeList α) (n : ℕ) : Option (NodeList α) :=
  match h : l.nodes.find? fun m => m.1 = n with
  | none => none
  | some m => some {
      nodes := (l.nodes.filter fun k => k.1 ≠ n) ++ [m]
      next := l.next
      nodup := by
        have hn : m.1 = n := by simpa using List.find?_some h
        rw [List.map_append, List.nodup_append]
        refine ⟨l.nodup.sublist (List.filter_sublist.map _), by simp, fun a ha b hb => ?_⟩
        obtain ⟨k, hk, rfl⟩ := List.mem_map.mp ha
        obtain rfl : b = m.1 := by simpa using hb
        rw [hn]
        simpa using (List.mem_filter.mp hk).2
      fresh := by
        intro k hk
        obtain hk | hk := List.mem_append.mp hk
        · exact l.fresh k (List.mem_filter.mp hk).1
        · obtain rfl : k = m := by simpa using hk
          exact l.fresh k (List.mem_of_find?_eq_some h) }

theorem Mem.unique {l : NodeList α} {n : ℕ} {x y : α} (hx : l.Mem n x) (hy : l.Mem n y) :
    x = y := by
  have h := List.inj_on_of_nodup_map l.nodup hx hy rfl
  exact congrArg Prod.snd h

@[simp] theorem not_mem_empty (n : ℕ) (x : α) : ¬ (empty : NodeList α).Mem n x := by
  simp [Mem, empty]

theorem mem_of_front {l : NodeList α} {n : ℕ} {x : α} (h : l.front = some (n, x)) : l.Mem n x :=
  List.mem_of_head? h

theorem not_mem_of_nil {l : NodeList α} (h : l.nodes = []) (n : ℕ) (x : α) : ¬ l.Mem n x := by
  simp [Mem, h]

theorem mem_elems {l : NodeList α} {x : α} : x ∈ l.elems ↔ ∃ n, l.Mem n x := by
  simp [elems, Mem]

theorem mem_pushBack {l : NodeList α} {x y : α} {n : ℕ} :
    (l.pushBack x).Mem n y ↔ l.Mem n y ∨ n = l.next ∧ y = x := by
  simp [Mem, pushBack]

/-- Only the first node is taken away. -/
theorem mem_popFront {l : NodeList α} {n m : ℕ} {x y : α} (h : l.front = some (n, x)) :
    l.popFront.Mem m y ↔ l.Mem m y ∧ m ≠ n := by
  obtain ⟨rest, hrest⟩ := List.head?_eq_some_iff.mp h
  have hnodup := l.nodup
  rw [hrest, List.map_cons, List.nodup_cons] at hnodup
  simp only [Mem, popFront, hrest, List.tail_cons, List.mem_cons, Prod.mk.injEq]
  constructor
  · intro hm
    refine ⟨.inr hm, fun hmn => hnodup.1 ?_⟩
    exact List.mem_map.mpr ⟨(m, y), hm, hmn⟩
  · rintro ⟨⟨rfl, -⟩ | hm, hne⟩
    · exact absurd rfl hne
    · exact hm

/-- A node that is in the list can be moved; the list keeps its nodes and, unless that
is the one moved, its first. -/
theorem spliceToBack_of_mem {l : NodeList α} {n : ℕ} {x : α} (h : l.Mem n x) :
    ∃ l', l.spliceToBack n = some l' ∧ (∀ m y, l'.Mem m y ↔ l.Mem m y) ∧
      l'.back = some (n, x) ∧ ∀ m y, l.front = some (m, y) → m ≠ n → l'.front = some (m, y) := by
  have hfind : ∃ m, l.nodes.find? (fun m => m.1 = n) = some m := by
    rw [← Option.isSome_iff_exists, List.find?_isSome]
    exact ⟨(n, x), h, by simp⟩
  obtain ⟨m, hm⟩ := hfind
  have hname : m.1 = n := by simpa using List.find?_some hm
  have hmx : m = (n, x) := by
    have hmem : l.Mem n m.2 := hname ▸ List.mem_of_find?_eq_some hm
    exact Prod.ext hname (hmem.unique h)
  unfold spliceToBack
  split
  · rename_i hnone
    rw [hm] at hnone
    cases hnone
  · rename_i m' hm'
    obtain rfl : m = m' := Option.some.inj (hm.symm.trans hm')
    refine ⟨_, rfl, fun k y => ?_, ?_, fun k y hfront hne => ?_⟩
    · simp only [Mem, hmx, List.mem_append, List.mem_filter, List.mem_singleton, Prod.mk.injEq,
        decide_eq_true_eq]
      constructor
      · rintro (⟨hk, -⟩ | ⟨rfl, rfl⟩)
        · exact hk
        · exact h
      · intro hk
        by_cases hkn : k = n
        · subst hkn
          exact .inr ⟨rfl, Mem.unique hk h⟩
        · exact .inl ⟨hk, hkn⟩
    · simp [back, hmx]
    · obtain ⟨rest, hrest⟩ := List.head?_eq_some_iff.mp hfront
      simp [front, hrest, hne]

/-- An element whose only node is `n` occurs once. -/
theorem count_elems [DecidableEq α] {l : NodeList α} {n : ℕ} {x : α} (h : l.Mem n x)
    (hn : ∀ m, l.Mem m x → m = n) : l.elems.count x = 1 := by
  have hnodes : l.nodes.Nodup := l.nodup.of_map
  have hone := List.count_eq_one_of_mem hnodes h
  rw [elems, List.count_eq_countP, List.countP_map, ← hone, List.count_eq_countP]
  refine List.countP_congr fun m hm => ?_
  simp only [Function.comp_apply, beq_iff_eq]
  constructor
  · rintro rfl
    exact Prod.ext (hn m.1 hm) rfl
  · rintro rfl
    rfl

end NodeList

end Lib
