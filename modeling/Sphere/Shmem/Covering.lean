import Sphere.Shmem.Heap

/-! When the blocks of an allocation are enough for its bytes. The count is the ceiling of a
quotient in binary32; it is a block short when the quotient is rounded down to the number of
the blocks before the last one, or below it. -/

namespace Sphere.Shmem

open Lib Lib.Transition
open Platform (maxSize)

/-- With `m` blocks before the last one: the quotient of the sizes, each to 24 bits, is not
rounded to `m` or below. -/
def KeepsLast (bytes blockSize : ℕ) : Prop :=
  let m := (bytes - 1) / blockSize
  let middle := (2 * Binary32.lead m + 1) * 2 ^ Nat.log 2 m * Binary32.nearest blockSize
  m = 0 ∨ middle < 2 ^ 24 * Binary32.nearest bytes ∨
    middle = 2 ^ 24 * Binary32.nearest bytes ∧ Binary32.lead m % 2 = 1

instance (bytes blockSize : ℕ) : Decidable (KeepsLast bytes blockSize) :=
  inferInstanceAs (Decidable (_ ∨ _ ∨ _ ∧ _))

theorem quotient_covers_iff {bytes blockSize : ℕ} (h : 0 < blockSize) :
    bytes ≤ quotient bytes blockSize * blockSize ↔ KeepsLast bytes blockSize := by
  rcases Nat.eq_zero_or_pos bytes with rfl | hbytes
  · exact iff_of_true (Nat.zero_le _) (.inl (by simp))
  have hlast : bytes ≤ quotient bytes blockSize * blockSize ↔
      (bytes - 1) / blockSize < quotient bytes blockSize := by
    rw [Nat.div_lt_iff_lt_mul h]
    omega
  rw [hlast]
  rcases Nat.eq_zero_or_pos ((bytes - 1) / blockSize) with hm | hm
  · rw [hm]
    exact iff_of_true (quotient_pos hbytes h) (.inl hm)
  · have hb := Binary32.nearest_pos hbytes
    have hs := Binary32.nearest_pos h
    rw [quotient, Nat.lt_ceil, Binary32.round_natCast, Binary32.round_natCast, ← not_le,
      Binary32.round_div_le_iff hb hs hm]
    unfold KeepsLast
    dsimp only
    omega

/-- Up to 2²⁴ bytes nothing is rounded away. -/
theorem keepsLast_of_le {bytes blockSize : ℕ} (h : bytes ≤ 2 ^ 24) :
    KeepsLast bytes blockSize := by
  unfold KeepsLast
  dsimp only
  rcases Nat.eq_zero_or_pos ((bytes - 1) / blockSize) with hm | hm
  · exact .inl hm
  refine .inr (.inl ?_)
  have hle : (bytes - 1) / blockSize * blockSize ≤ bytes - 1 := Nat.div_mul_le_self _ _
  have hpos : 0 < blockSize := by
    by_contra hz
    obtain rfl : blockSize = 0 := by omega
    simp at hm
  have hbs : blockSize ≤ bytes - 1 := by
    by_contra hlt
    rw [Nat.div_eq_of_lt (not_le.mp hlt)] at hm
    cases hm
  generalize (bytes - 1) / blockSize = m at hm hle ⊢
  have hmle : m ≤ m * blockSize := Nat.le_mul_of_pos_right m hpos
  have hlead : Binary32.lead m * 2 ^ Nat.log 2 m = m * 2 ^ 23 :=
    Binary32.lead_mul (by omega)
  have hlog : 2 ^ Nat.log 2 m ≤ m := Nat.pow_log_le_self 2 hm.ne'
  have hshort : 2 ^ Nat.log 2 m * blockSize ≤ m * blockSize := Nat.mul_le_mul_right _ hlog
  rw [Binary32.nearest_of_le h, Binary32.nearest_of_le (by omega)]
  calc (2 * Binary32.lead m + 1) * 2 ^ Nat.log 2 m * blockSize
      = 2 * (Binary32.lead m * 2 ^ Nat.log 2 m) * blockSize + 2 ^ Nat.log 2 m * blockSize := by ring
    _ = 2 ^ 24 * (m * blockSize) + 2 ^ Nat.log 2 m * blockSize := by rw [hlead]; ring
    _ < 2 ^ 24 * bytes := by omega

/-- No byte in common. -/
def Apart (a b : Allocation) : Prop :=
  ∀ i < a.size * a.n, ∀ j < b.size * b.n,
    (a.pointer + i) % 2 ^ 64 ≠ (b.pointer + j) % 2 ^ 64

/-- Every byte of the pool has an address of its own. -/
def ShMemState.Addressable (s : ShMemState) : Prop := s.blocksCount * s.blockSize ≤ 2 ^ 64

instance (s : ShMemState) : Decidable s.Addressable := inferInstanceAs (Decidable (_ ≤ _))

theorem ShMemState.Addressable.spans {s : ShMemState} (h : s.Addressable)
    (hs : 0 < s.blockSize) : s.Spans := by
  unfold Addressable at h
  rw [Spans, Nat.sub_mul, one_mul]
  omega

section

variable [Platform]

/-- For a count that a search can be made for. -/
theorem covers_iff {bytes blockSize : ℕ} (hbytes : bytes < 2 ^ 64) (h : 0 < blockSize)
    (hmax : getSizeInBlocks bytes blockSize ≤ maxSize) :
    bytes ≤ getSizeInBlocks bytes blockSize * blockSize ↔
      Converts bytes blockSize ∧ KeepsLast bytes blockSize := by
  rw [← quotient_lt_iff hbytes h]
  by_cases hq : quotient bytes blockSize < 2 ^ 64
  · rw [getSizeInBlocks_of_lt hq, and_iff_right hq]
    exact quotient_covers_iff h
  · -- the count that is put in its place is below 2⁶³, and the blocks have one byte
    refine iff_of_false (fun hle => ?_) fun hc => hq hc.1
    have hnot := mt (quotient_lt_iff hbytes h).mpr hq
    rw [Converts, not_or, not_not] at hnot
    obtain ⟨rfl, hlarge⟩ := hnot
    have hlt := Platform.lt
    omega

/-- The blocks of the allocation are enough for its bytes. -/
def ShMemState.Covers (s : ShMemState) (a : Allocation) : Prop :=
  a.size * a.n ≤ (s.blocks a).len * s.blockSize

namespace Heap

/-- The live allocations have the bytes that were asked for, each its own. -/
def Separate (h : Heap) : Prop :=
  (∀ a ∈ h.live, h.state.Covers a) ∧ h.live.Pairwise Apart

def StaysSeparate (h : Heap) (c : Call) : Prop := ∀ h', h.step c = some h' → h'.Separate

/-- A request that is served is one whose last block is kept. -/
def Suits (h : Heap) : Call → Prop
  | .allocate size n =>
    match (h.state.allocate size n).2 with
    | .ok _ => size * n < 2 ^ 64 ∧ Converts (size * n) h.state.blockSize ∧
        KeepsLast (size * n) h.state.blockSize
    | .error _ => True
  | .deallocate _ => True

instance (h : Heap) (c : Call) : Decidable (h.Suits c) := by
  unfold Suits
  split
  · split <;> infer_instance
  · infer_instance

/-- Each live allocation points to the first of its blocks, and these are enough. -/
structure Placed (h : Heap) : Prop extends Sound h where
  addressable : h.state.Addressable
  pointer : ∀ a ∈ h.live, a.pointer = h.state.address (h.state.offset a.pointer)
  covers : ∀ a ∈ h.live, h.state.Covers a

/-- A byte of an allocation lies in one of its blocks. -/
theorem Placed.byte {h : Heap} (hp : h.Placed) {a : Allocation} (ha : a ∈ h.live) {i : ℕ}
    (hi : i < a.size * a.n) :
    ∃ x ∈ h.state.blocks a, ∃ k < h.state.blockSize,
      (a.pointer + i) % 2 ^ 64 = (h.state.firstBlock + (x * h.state.blockSize + k)) % 2 ^ 64 := by
  have hpos := hp.blockSize_pos
  have hcovers : i / h.state.blockSize < (h.state.blocks a).len :=
    (Nat.div_lt_iff_lt_mul hpos).mpr (hi.trans_le (hp.covers a ha))
  refine ⟨h.state.offset a.pointer + i / h.state.blockSize, ?_, i % h.state.blockSize,
    Nat.mod_lt _ hpos, ?_⟩
  · rw [Segment.mem_iff]
    exact ⟨Nat.le_add_right _ _, Nat.add_lt_add_left hcovers _⟩
  · rw [add_mul, add_assoc (h.state.offset a.pointer * _), Nat.div_add_mod', ← add_assoc]
    conv_lhs => rw [hp.pointer a ha]
    exact Nat.mod_add_mod _ _ _

/-- A block of the table is below 2⁶⁴ with all its bytes. -/
theorem Placed.below {h : Heap} (hp : h.Placed) {a : Allocation} (ha : a ∈ h.live) {x k : ℕ}
    (hx : x ∈ h.state.blocks a) (hk : k < h.state.blockSize) :
    x * h.state.blockSize + k < 2 ^ 64 := by
  have hlt : x < h.state.blocksCount := by
    rw [← h.state.table_length]
    exact hp.marks.lt_length (List.mem_map_of_mem ha) hx
  have hle : (x + 1) * h.state.blockSize ≤ h.state.blocksCount * h.state.blockSize :=
    Nat.mul_le_mul_right _ hlt
  have haddr := hp.addressable
  rw [ShMemState.Addressable] at haddr
  rw [add_mul, one_mul] at hle
  omega

theorem Placed.apart {h : Heap} (hp : h.Placed) {a b : Allocation} (ha : a ∈ h.live)
    (hb : b ∈ h.live) (hd : (h.state.blocks a).Disjoint (h.state.blocks b)) : Apart a b := by
  intro i hi j hj heq
  obtain ⟨x, hx, k, hk, hxi⟩ := hp.byte ha hi
  obtain ⟨y, hy, l, hl, hyj⟩ := hp.byte hb hj
  have hxlt := hp.below ha hx hk
  have hylt := hp.below hb hy hl
  rw [hxi, hyj] at heq
  have hsame : x * h.state.blockSize + k = y * h.state.blockSize + l := by omega
  have hdiv : ∀ z m, m < h.state.blockSize →
      (z * h.state.blockSize + m) / h.state.blockSize = z := by
    intro z m hm
    rw [mul_comm, Nat.mul_add_div hp.blockSize_pos, Nat.div_eq_of_lt hm, add_zero]
  have hxy : x = y := by rw [← hdiv x k hk, hsame, hdiv y l hl]
  exact hd x hx (hxy ▸ hy)

theorem Placed.separate {h : Heap} (hp : h.Placed) : h.Separate := by
  refine ⟨hp.covers, ?_⟩
  have hpair := List.pairwise_map.mp hp.marks.pairwise
  exact hpair.imp_of_mem fun ha hb hd => hp.apart ha hb hd

/-- The blocks of a request that was served are enough for it when its count is a `size_t` and
its last block is kept. -/
theorem served_covers_iff {s : ShMemState} (hs : 0 < s.blockSize) (haddr : s.Addressable)
    {size n : ℕ} (hin : s.blocksOf size n ≤ s.blocksCount) (hmax : s.blocksOf size n ≤ maxSize) :
    size * n ≤ s.blocksOf size n * s.blockSize ↔
      size * n < 2 ^ 64 ∧ Converts (size * n) s.blockSize ∧ KeepsLast (size * n) s.blockSize := by
  have hle : s.blocksOf size n * s.blockSize ≤ 2 ^ 64 :=
    (Nat.mul_le_mul_right _ hin).trans haddr
  have hsmall : size * n ≤ s.blocksOf size n * s.blockSize → size * n < 2 ^ 64 := by
    intro h
    refine lt_of_le_of_ne (h.trans hle) fun htop => ?_
    -- such a number of bytes is taken for none
    rw [ShMemState.blocksOf, htop, Nat.mod_self, getSizeInBlocks_zero, zero_mul] at h
    omega
  by_cases hlt : size * n < 2 ^ 64
  · rw [ShMemState.blocksOf, Nat.mod_eq_of_lt hlt] at hmax ⊢
    rw [covers_iff hlt hs hmax, and_iff_right hlt]
  · exact iff_of_false (fun h => hlt (hsmall h)) fun h => hlt h.1

theorem Placed.step {h h' : Heap} {c : Call} (hp : h.Placed) (hstep : h.step c = some h') :
    (h.StaysSeparate c ↔ h.Suits c) ∧ (h.Suits c → h'.Placed) := by
  have hstays : h.StaysSeparate c ↔ h'.Separate := by
    refine ⟨fun hall => hall h' hstep, fun hsep h'' hstep' => ?_⟩
    rwa [← Option.some.inj (hstep.symm.trans hstep')]
  have hsound := hp.toSound.step hstep
  suffices hone : (h'.Separate → h.Suits c) ∧ (h.Suits c → h'.Placed) by
    rw [hstays]
    exact ⟨⟨hone.1, fun hc => (hone.2 hc).separate⟩, hone.2⟩
  cases c with
  | allocate size n =>
    obtain ⟨pos, hin, hle, hmax, -, hok⟩ | ⟨e, -, hthrow⟩ :=
      ShMemState.allocate_cases hp.blockSize_pos size n
    · have hoff : h.state.offset (h.state.address pos) = pos :=
        hp.spans.offset hp.blockSize_pos hle
      have hiff := served_covers_iff hp.blockSize_pos hp.addressable (by omega) hmax
      simp only [Heap.step, hok, Option.some.injEq] at hstep
      subst hstep
      simp only [Suits, hok]
      refine ⟨fun hsep => hiff.mp (hsep.1 _ List.mem_cons_self),
        fun hc => ⟨hsound, hp.addressable, ?_, ?_⟩⟩
      · intro a ha
        rcases List.mem_cons.mp ha with rfl | ha
        · exact (congrArg h.state.address hoff).symm
        · exact hp.pointer a ha
      · intro a ha
        rcases List.mem_cons.mp ha with rfl | ha
        · exact hiff.mpr hc
        · exact hp.covers a ha
    · simp only [Heap.step, hthrow, Option.some.injEq] at hstep
      subst hstep
      simp only [Suits, hthrow]
      exact ⟨fun _ => trivial, fun _ => ⟨hsound, hp.addressable, hp.pointer, hp.covers⟩⟩
  | deallocate a =>
    rw [Heap.step] at hstep
    split_ifs at hstep with ha
    obtain rfl := Option.some.inj hstep
    refine ⟨fun _ => trivial,
      fun _ => ⟨hsound, hp.addressable, fun b hb => ?_, fun b hb => ?_⟩⟩
    · exact hp.pointer b (List.mem_of_mem_erase hb)
    · exact hp.covers b (List.mem_of_mem_erase hb)

end Heap

/-- From a free table of a pool whose bytes have addresses of their own, over any calls: each
call leaves the live allocations with all the bytes that were asked for and no byte in common,
if and only if each request that is served has a count that is a `size_t` and keeps its last
block. -/
theorem allocations_covered_iff (s : ShMemState) (hs : 0 < s.blockSize) (haddr : s.Addressable)
    (hfree : s.usedBlocksTable = List.replicate s.blocksCount FREE_BLOCK)
    (calls : List Call) (h : Heap) (hrun : run Heap.step ⟨s, []⟩ calls = some h) :
    Along Heap.step Heap.StaysSeparate ⟨s, []⟩ calls ↔
      Along Heap.step Heap.Suits ⟨s, []⟩ calls :=
  run_along_iff (I := Heap.Placed) (fun _ _ _ hp hstep => hp.step hstep)
    ⟨Heap.sound_fresh hs (haddr.spans hs) hfree, haddr, nofun, nofun⟩ hrun

end

open scoped Gnu

theorem allocations_covered_reuse :
    ∃ h, run Heap.step ⟨smallPool, []⟩ smallCalls = some h ∧
      Along Heap.step Heap.StaysSeparate ⟨smallPool, []⟩ smallCalls := by
  have hrun : (run Heap.step ⟨smallPool, []⟩ smallCalls).isSome := by decide +kernel
  obtain ⟨h, hh⟩ := Option.isSome_iff_exists.mp hrun
  exact ⟨h, hh, (allocations_covered_iff smallPool (by decide) (by decide) rfl smallCalls h hh).mpr
    (by decide +kernel)⟩

/-- Two blocks of 2²⁴ bytes. -/
def widePool : ShMemState :=
  ⟨2, 2 ^ 24, List.replicate 2 FREE_BLOCK, 4096, rfl⟩

/-- One byte more than a block, and one byte. -/
def wideCalls : List Call := [.allocate 1 (2 ^ 24 + 1), .allocate 1 1]

/-- The first allocation gets one block, and the second one the last byte of the first. -/
theorem last_byte_shared :
    ∃ h, run Heap.step ⟨widePool, []⟩ wideCalls = some h ∧
      h.live = [⟨4096 + 2 ^ 24, 1, 1⟩, ⟨4096, 1, 2 ^ 24 + 1⟩] ∧
      (h.live.map fun a => (h.state.blocks a).len * h.state.blockSize) = [2 ^ 24, 2 ^ 24] ∧
      ¬ h.live.Pairwise Apart := by
  have hrun : (run Heap.step ⟨widePool, []⟩ wideCalls).map (fun h =>
      (h.live, h.live.map fun a => (h.state.blocks a).len * h.state.blockSize)) =
      some ([⟨4096 + 2 ^ 24, 1, 1⟩, ⟨4096, 1, 2 ^ 24 + 1⟩], [2 ^ 24, 2 ^ 24]) := by
    decide +kernel
  obtain ⟨h, hh, hq⟩ := Option.map_eq_some_iff.mp hrun
  obtain ⟨hlive, hlen⟩ := Prod.mk.inj hq
  refine ⟨h, hh, hlive, hlen, fun hpair => ?_⟩
  rw [hlive, List.pairwise_pair] at hpair
  exact hpair 0 (by decide) (2 ^ 24) (by decide) rfl

end Sphere.Shmem
