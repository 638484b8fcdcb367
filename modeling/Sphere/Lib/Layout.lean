import Sphere.Lib.Segment

/-! Regions placed one after another in a space of `w` addresses, where addresses wrap. They
lie inside a mapping that starts with them exactly when the mapping is as long as all of
them, and are then apart. -/

namespace Lib.Layout

variable {w : ℕ} {m r r' : Segment}

/-- The address of a byte of the region. -/
def Holds (w : ℕ) (r : Segment) (x : ℕ) : Prop := ∃ i < r.len, (r.start + i) % w = x

def Inside (w : ℕ) (r m : Segment) : Prop := ∀ x, Holds w r x → x ∈ m

def Apart (w : ℕ) (r r' : Segment) : Prop := ∀ x, Holds w r x → ¬ Holds w r' x

/-- The region with its start as an address. -/
def wrap (w : ℕ) (r : Segment) : Segment := ⟨r.start % w, r.len⟩

theorem holds_wrap (x : ℕ) : Holds w (wrap w r) x ↔ Holds w r x := by
  unfold Holds wrap
  simp only [Nat.mod_add_mod]

theorem inside_wrap : Inside w (wrap w r) m ↔ Inside w r m := by
  simp only [Inside, holds_wrap]

theorem apart_wrap : Apart w (wrap w r) (wrap w r') ↔ Apart w r r' := by
  simp only [Apart, holds_wrap]

/-- A region that starts in the mapping, or right behind it, and leaves it has the first byte
behind it. -/
theorem inside_iff (hm : m.start + m.len ≤ w) (hlen : m.len < w) (hs : m.start ≤ r.start)
    (he : r.start ≤ m.start + m.len) :
    Inside w r m ↔ r.start + r.len ≤ m.start + m.len := by
  constructor
  · intro h
    by_contra hlt
    have hbehind := h _ ⟨m.start + m.len - r.start, by omega, rfl⟩
    rw [Nat.add_sub_cancel' he, Segment.mem_iff] at hbehind
    obtain hw | hw := hm.lt_or_eq
    · rw [Nat.mod_eq_of_lt hw] at hbehind
      omega
    · rw [hw, Nat.mod_self] at hbehind
      omega
  · rintro h x ⟨i, hi, rfl⟩
    rw [Nat.mod_eq_of_lt (by omega), Segment.mem_iff]
    omega

/-- Regions of the given lengths, one after another. -/
def place : ℕ → List ℕ → List Segment
  | _, [] => []
  | start, n :: ns => ⟨start, n⟩ :: place (start + n) ns

theorem place_append (start : ℕ) (ns ns' : List ℕ) :
    place start (ns ++ ns') = place start ns ++ place (start + ns.sum) ns' := by
  induction ns generalizing start with
  | nil => rfl
  | cons n ns ih => rw [List.cons_append, place, place, ih, List.sum_cons, add_assoc]; rfl

theorem place_replicate (start n k : ℕ) :
    place start (List.replicate k n) = (List.range k).map fun j => ⟨start + j * n, n⟩ := by
  induction k with
  | zero => rfl
  | succ k ih =>
    rw [List.replicate_succ', place_append, ih, List.sum_replicate, List.range_succ,
      List.map_append, smul_eq_mul]
    rfl

theorem mem_place {start : ℕ} {ns : List ℕ} (h : r ∈ place start ns) :
    start ≤ r.start ∧ r.start + r.len ≤ start + ns.sum := by
  induction ns generalizing start with
  | nil => cases h
  | cons n ns ih =>
    rw [List.sum_cons]
    obtain rfl | h := List.mem_cons.mp h
    · dsimp only
      omega
    · have := ih h
      omega

theorem place_inside_iff (hm : m.start + m.len ≤ w) (hlen : m.len < w) {start : ℕ}
    (hs : m.start ≤ start) (he : start ≤ m.start + m.len) (ns : List ℕ) :
    (∀ r ∈ place start ns, Inside w r m) ↔ start + ns.sum ≤ m.start + m.len := by
  induction ns generalizing start with
  | nil => exact iff_of_true nofun he
  | cons n ns ih =>
    rw [place, List.forall_mem_cons, inside_iff hm hlen hs he, List.sum_cons]
    dsimp only
    constructor
    · rintro ⟨hn, hrest⟩
      rw [ih (by omega) hn] at hrest
      omega
    · intro h
      refine ⟨by omega, ?_⟩
      rw [ih (by omega) (by omega)]
      omega

theorem place_apart {start : ℕ} {ns : List ℕ} (h : start + ns.sum ≤ w) :
    (place start ns).Pairwise (Apart w) := by
  induction ns generalizing start with
  | nil => exact .nil
  | cons n ns ih =>
    rw [List.sum_cons] at h
    refine .cons ?_ (ih (by omega))
    rintro r hr x ⟨i, hi, rfl⟩ ⟨j, hj, heq⟩
    obtain ⟨hlo, hhi⟩ := mem_place hr
    dsimp only at hi heq
    rw [Nat.mod_eq_of_lt (by omega), Nat.mod_eq_of_lt (by omega)] at heq
    omega

end Lib.Layout
