import Sphere.Shmem.Allocator

/-! Runs of `allocate` and `deallocate` over one pool: the table marks exactly the blocks
of the live allocations, whatever the order of the calls and the sizes of the elements. -/

namespace Sphere.Shmem

open Lib Lib.Transition

/-- What `allocate<T>(n)` returned, with `size` for `sizeof(T)`. -/
structure Allocation where
  pointer : ℕ
  size : ℕ
  n : ℕ
  deriving DecidableEq, Repr

open Platform (maxSize)

section

variable [Platform]

namespace ShMemState

def blocks (s : ShMemState) (a : Allocation) : Segment :=
  ⟨s.offset a.pointer, s.blocksOf a.size a.n⟩

/-- A request is served when there is a run for it, and refused with `bad_alloc` and
the table as it was when there is none. -/
structure Serves (s : ShMemState) (size n : ℕ) : Prop where
  returns : s.HasRun (s.blocksOf size n) → ∃ s' p, s.allocate size n = (s', .ok p)
  throws : ¬ s.HasRun (s.blocksOf size n) → s.allocate size n = (s, .error .badAlloc)

variable {s : ShMemState}

theorem allocate_cases (hs : 0 < s.blockSize) (size n : ℕ) :
    (∃ pos, pos + s.blocksOf size n ≤ s.blocksCount ∧ pos ≤ s.blocksCount - 1 ∧
      s.blocksOf size n ≤ maxSize ∧
      (∀ i ∈ (⟨pos, s.blocksOf size n⟩ : Segment), s.usedBlocksTable[i]? = some FREE_BLOCK) ∧
      s.allocate size n
        = (s.memset pos USED_BLOCK (s.blocksOf size n), .ok (s.address pos))) ∨
    ∃ e, findFreeBlocks (s.blocksOf size n) s.usedBlocksTable = .error e ∧
      s.allocate size n = (s, .error e) := by
  have hne : s.blockSize ≠ 0 := by omega
  cases hf : findFreeBlocks (s.blocksOf size n) s.usedBlocksTable with
  | error e => exact .inr ⟨e, rfl, by simp only [allocate, if_neg hne, hf]⟩
  | ok pos =>
    obtain ⟨hmax, hin, hfree⟩ := findFreeBlocks_ok hf
    have hle := findFreeBlocks_le hf
    rw [s.table_length] at hin hle
    exact .inl ⟨pos, hin, hle, hmax, hfree, by simp only [allocate, if_neg hne, hf]⟩

theorem serves_iff (hs : 0 < s.blockSize) (size n : ℕ) :
    s.Serves size n ↔ s.blocksOf size n ≤ maxSize := by
  constructor
  · intro h
    by_contra hmax
    have hlen : s.allocate size n = (s, .error .lengthError) := by
      simp only [allocate, if_neg hs.ne', findFreeBlocks, if_pos (not_le.mp hmax)]
    by_cases hrun : s.HasRun (s.blocksOf size n)
    · obtain ⟨s', p, hok⟩ := h.returns hrun
      rw [hlen] at hok
      cases hok
    · have hbad := h.throws hrun
      rw [hlen] at hbad
      cases hbad
  · intro hn
    have hiff := findFreeBlocks_badAlloc_iff (t := s.usedBlocksTable) hn
    rcases allocate_cases hs size n with ⟨pos, -, -, -, hfree, hok⟩ | ⟨e, he, hthrow⟩
    · exact ⟨fun _ => ⟨_, _, hok⟩, fun h => absurd ⟨pos, hfree⟩ h⟩
    · cases e with
      | badAlloc => exact ⟨fun h => absurd h (hiff.mp he), fun _ => hthrow⟩
      | lengthError =>
        rw [findFreeBlocks, if_neg hn.not_gt] at he
        split at he <;> cases he

end ShMemState

inductive Call
  | allocate (size n : ℕ)
  | deallocate (a : Allocation)
  deriving DecidableEq, Repr

structure Heap where
  state : ShMemState
  live : List Allocation

namespace Heap

/-- A `deallocate` names a live allocation, with its pointer and its `n`. -/
def step (h : Heap) : Call → Option Heap
  | .allocate size n =>
    match h.state.allocate size n with
    | (s, .ok p) => some ⟨s, ⟨p, size, n⟩ :: h.live⟩
    | (s, .error _) => some ⟨s, h.live⟩
  | .deallocate a =>
    if a ∈ h.live then
      some ⟨h.state.deallocate a.pointer a.size a.n, h.live.erase a⟩
    else none

/-- The blocks of the live allocations are apart and inside the pool, and the table marks
these and no others. -/
structure Marked (h : Heap) : Prop where
  apart : (h.live.map h.state.blocks).Pairwise Segment.Disjoint
  inside : ∀ a ∈ h.live, ∀ i ∈ h.state.blocks a, i < h.state.blocksCount
  table : ∀ i < h.state.blocksCount, h.state.usedBlocksTable[i]? =
    some (if ∃ a ∈ h.live, i ∈ h.state.blocks a then USED_BLOCK else FREE_BLOCK)

/-- What every step keeps: a cell is marked for one allocation. -/
structure Sound (h : Heap) : Prop where
  blockSize_pos : 0 < h.state.blockSize
  spans : h.state.Spans
  marks : Marks USED_BLOCK FREE_BLOCK h.state.usedBlocksTable (h.live.map h.state.blocks)

theorem Sound.step {h h' : Heap} {c : Call} (hs : h.Sound) (hstep : step h c = some h') :
    h'.Sound := by
  obtain ⟨hpos, hspans, hm⟩ := hs
  cases c with
  | allocate size n =>
    rcases ShMemState.allocate_cases hpos size n with ⟨pos, -, hle, -, hfree, hok⟩ | ⟨e, -, hthrow⟩
    · simp only [Heap.step, hok, Option.some.injEq] at hstep
      subst hstep
      refine ⟨hpos, hspans, ?_⟩
      -- the new allocation's own blocks are the window that was marked
      have hoff : h.state.offset (h.state.address pos) = pos := hspans.offset hpos hle
      have hnew := hm.memset_used USED_BLOCK_ne_FREE_BLOCK hfree
      rw [List.map_cons]
      refine hnew.congr fun i => ?_
      rw [show (h.state.memset pos USED_BLOCK (h.state.blocksOf size n)).blocks
        ⟨h.state.address pos, size, n⟩ = ⟨pos, h.state.blocksOf size n⟩ from
          congrArg (Segment.mk · _) hoff]
      rfl
    · simp only [Heap.step, hthrow, Option.some.injEq] at hstep
      subst hstep
      exact ⟨hpos, hspans, hm⟩
  | deallocate a =>
    rw [Heap.step] at hstep
    split_ifs at hstep with ha
    obtain rfl := Option.some.inj hstep
    refine ⟨hpos, hspans, ?_⟩
    have hperm := (List.perm_cons_erase ha).map h.state.blocks
    rw [List.map_cons] at hperm
    have hm' := hm.congr fun i => Segment.cover_perm hperm.symm i
    exact hm'.memset_free USED_BLOCK_ne_FREE_BLOCK

theorem Sound.run {h h' : Heap} {calls : List Call} (hs : h.Sound)
    (hrun : Transition.run Heap.step h calls = some h') : h'.Sound :=
  run_preserves (fun _ _ _ hs hstep => hs.step hstep) hs hrun

theorem sound_fresh {s : ShMemState} (hs : 0 < s.blockSize) (hspans : s.Spans)
    (hfree : s.usedBlocksTable = List.replicate s.blocksCount FREE_BLOCK) :
    (⟨s, []⟩ : Heap).Sound := by
  refine ⟨hs, hspans, ?_⟩
  change Marks _ _ s.usedBlocksTable []
  rw [hfree]
  exact Marks.fresh USED_BLOCK_ne_FREE_BLOCK _

theorem Sound.marked {h : Heap} (hs : h.Sound) : h.Marked := by
  have hm := hs.marks
  refine ⟨hm.pairwise, fun a ha i hi => ?_, fun i hi => ?_⟩
  · rw [← h.state.table_length]
    exact hm.lt_length (List.mem_map_of_mem ha) hi
  · rw [← h.state.table_length] at hi
    rw [hm.getElem? hi]
    simp only [List.mem_map, exists_exists_and_eq_and]

theorem run_blockSize {h h' : Heap} {calls : List Call} (hpos : 0 < h.state.blockSize)
    (hrun : run Heap.step h calls = some h') : 0 < h'.state.blockSize := by
  refine run_preserves (I := fun g : Heap => 0 < g.state.blockSize)
    (fun g c g' hg hstep => ?_) hpos hrun
  cases c with
  | allocate size n =>
    rcases ShMemState.allocate_cases hg size n with ⟨pos, -, -, -, -, hok⟩ | ⟨e, -, hthrow⟩
    · simp only [Heap.step, hok, Option.some.injEq] at hstep
      subst hstep
      exact hg
    · simp only [Heap.step, hthrow, Option.some.injEq] at hstep
      subst hstep
      exact hg
  | deallocate a =>
    rw [Heap.step] at hstep
    split_ifs at hstep
    obtain rfl := Option.some.inj hstep
    exact hg

/-! A pool that is taken block by block. -/

/-- The pool whose first `k` blocks are taken. -/
structure Filled (s : ShMemState) (k : ℕ) (h : Heap) : Prop where
  count : h.state.blocksCount = s.blocksCount
  size : h.state.blockSize = s.blockSize
  first : h.state.firstBlock = s.firstBlock
  table : h.state.usedBlocksTable =
    List.replicate k USED_BLOCK ++ List.replicate (s.blocksCount - k) FREE_BLOCK
  live : h.live = ((List.range k).map fun j => ⟨s.address j, 1, 1⟩).reverse

theorem run_fill {s : ShMemState} (hs : 0 < s.blockSize)
    (hfree : s.usedBlocksTable = List.replicate s.blocksCount FREE_BLOCK) (k : ℕ)
    (hk : k ≤ s.blocksCount) :
    ∃ h, run Heap.step ⟨s, []⟩ (List.replicate k (.allocate 1 1)) = some h ∧ Filled s k h := by
  induction k with
  | zero => exact ⟨_, rfl, rfl, rfl, rfl, hfree, rfl⟩
  | succ k ih =>
    obtain ⟨h, hrun, hh⟩ := ih (by omega)
    have hone : h.state.blocksOf 1 1 = 1 := by
      have hsize : 0 < h.state.blockSize := hh.size ▸ hs
      exact getSizeInBlocks_one hsize
    have hfind : findFreeBlocks 1 h.state.usedBlocksTable = .ok k := by
      rw [hh.table]
      have htwo := Platform.two_le
      exact findFreeBlocks_taken one_pos (by omega) (by omega) k
    have hstep : h.step (.allocate 1 1) =
        some ⟨h.state.memset k USED_BLOCK 1, ⟨h.state.address k, 1, 1⟩ :: h.live⟩ := by
      have hne : h.state.blockSize ≠ 0 := by
        rw [hh.size]
        exact hs.ne'
      simp only [Heap.step, ShMemState.allocate, if_neg hne, hone, hfind]
    refine ⟨⟨h.state.memset k USED_BLOCK 1, ⟨h.state.address k, 1, 1⟩ :: h.live⟩, ?_,
      hh.count, hh.size, hh.first, ?_, ?_⟩
    · rw [List.replicate_succ', run_append, hrun, Option.bind_some, run, hstep]
      rfl
    · change (h.state.usedBlocksTable.set (k + 0) USED_BLOCK) = _
      obtain ⟨m, hm⟩ := Nat.exists_eq_add_of_lt hk
      have hleft : s.blocksCount - k = m + 1 := by omega
      have hleft' : s.blocksCount - (k + 1) = m := by omega
      rw [hh.table, hleft, hleft', List.set_append_right _ _ (by simp), List.length_replicate,
        Nat.add_sub_cancel_left, List.replicate_succ, List.set_cons_zero, List.replicate_succ',
        List.append_assoc, List.singleton_append]
    · have haddr : h.state.address k = s.address k := by
        rw [ShMemState.address, ShMemState.address, hh.first, hh.size]
      change _ :: h.live = _
      rw [hh.live, haddr, List.range_succ, List.map_append, List.reverse_append]
      rfl

/-- When the last block starts 2⁶⁴ bytes behind the first one or later, its address is taken
for one in another block. -/
theorem Filled.not_marked {s : ShMemState} {h : Heap} (hh : Filled s s.blocksCount h)
    (hs : 0 < s.blockSize) (hspans : ¬ s.Spans) : ¬ h.Marked := by
  intro hm
  have hblocks : ∀ j, h.state.blocks ⟨s.address j, 1, 1⟩ =
      ⟨j * s.blockSize % 2 ^ 64 / s.blockSize, 1⟩ := by
    intro j
    have hone : h.state.blocksOf 1 1 = 1 := by
      have hsize : 0 < h.state.blockSize := hh.size ▸ hs
      exact getSizeInBlocks_one hsize
    have hoff : h.state.offset (s.address j) = s.offset (s.address j) := by
      rw [ShMemState.offset, ShMemState.offset, hh.first, hh.size]
    rw [ShMemState.blocks, hone, hoff, s.offset_address]
  have hpair := hm.apart
  rw [hh.live, List.map_reverse, List.pairwise_reverse, List.map_map, List.pairwise_map] at hpair
  simp only [Function.comp, hblocks] at hpair
  rw [ShMemState.Spans, not_lt] at hspans
  obtain ⟨c, hc⟩ : ∃ c, s.blocksCount = c + 1 := by
    refine Nat.exists_eq_succ_of_ne_zero fun hzero => ?_
    rw [hzero, Nat.zero_sub, zero_mul] at hspans
    omega
  rw [hc, Nat.add_sub_cancel] at hspans
  rw [hc] at hpair
  -- the block that the last one is taken for is in its place
  let q := c * s.blockSize % 2 ^ 64 / s.blockSize
  have hmod : c * s.blockSize % 2 ^ 64 < 2 ^ 64 := Nat.mod_lt _ (by norm_num)
  have hqle : q * s.blockSize ≤ c * s.blockSize % 2 ^ 64 := Nat.div_mul_le_self _ _
  have hqlt : q < c := by
    rw [Nat.div_lt_iff_lt_mul hs]
    omega
  have hself : q * s.blockSize % 2 ^ 64 / s.blockSize = q := by
    rw [Nat.mod_eq_of_lt (by omega), Nat.mul_div_cancel _ hs]
  have hdisj := List.pairwise_iff_getElem.mp hpair q c (by rw [List.length_range]; omega)
    (by rw [List.length_range]; omega) hqlt
  simp only [List.getElem_range, hself] at hdisj
  exact hdisj q ⟨le_rfl, Nat.lt_succ_self q⟩ ⟨le_rfl, Nat.lt_succ_self q⟩

end Heap

/-- With a free table: every run of calls keeps the blocks of the live allocations apart,
inside the pool and marked, and marks nothing else, if and only if each block starts less than
2⁶⁴ bytes behind the first one. And in whatever state a run has reached, a request is served
or refused as it should be exactly when the search pattern can be built for it. -/
theorem live_blocks_marked_iff (s : ShMemState) (hs : 0 < s.blockSize)
    (hfree : s.usedBlocksTable = List.replicate s.blocksCount FREE_BLOCK) :
    ((∀ calls h, run Heap.step ⟨s, []⟩ calls = some h → h.Marked) ↔ s.Spans) ∧
    ∀ calls h, run Heap.step ⟨s, []⟩ calls = some h →
      ∀ size n, h.state.Serves size n ↔ h.state.blocksOf size n ≤ maxSize := by
  refine ⟨⟨fun hall => ?_, fun hspans calls h hrun => ?_⟩, fun calls h hrun => ?_⟩
  · by_contra hspans
    obtain ⟨h, hrun, hh⟩ := Heap.run_fill hs hfree s.blocksCount le_rfl
    exact hh.not_marked hs hspans (hall _ h hrun)
  · exact ((Heap.sound_fresh hs hspans hfree).run hrun).marked
  · exact ShMemState.serves_iff (Heap.run_blockSize hs hrun)

end

/-- Four blocks of eight bytes. -/
def smallPool : ShMemState :=
  ⟨4, 8, List.replicate 4 FREE_BLOCK, 4096, rfl⟩

/-- Two allocations, the first returned, and a third that gets its two blocks. -/
def smallCalls : List Call :=
  [.allocate 4 4, .allocate 1 8, .deallocate ⟨4096, 4, 4⟩, .allocate 8 2]

open scoped Gnu

theorem live_blocks_marked_reuse :
    (∀ calls h, run Heap.step ⟨smallPool, []⟩ calls = some h → h.Marked) ∧
    ∃ h, run Heap.step ⟨smallPool, []⟩ smallCalls = some h ∧
      h.live = [⟨4096, 8, 2⟩, ⟨4112, 1, 8⟩] ∧ h.Marked := by
  have hall := (live_blocks_marked_iff smallPool (by decide) rfl).1.mpr (by decide)
  have hrun : (run Heap.step ⟨smallPool, []⟩ smallCalls).map (fun h => h.live)
      = some [⟨4096, 8, 2⟩, ⟨4112, 1, 8⟩] := by decide +kernel
  obtain ⟨h, hh, hlive⟩ := Option.map_eq_some_iff.mp hrun
  exact ⟨hall, h, hh, hlive, hall smallCalls h hh⟩

/-- One block of one byte. -/
def bytePool : ShMemState := ⟨1, 1, [FREE_BLOCK], 4096, rfl⟩

theorem blocksOf_bytePool : bytePool.blocksOf 1 (2 ^ 63) = 2 ^ 63 := by
  have hround : ((1 * 2 ^ 63 % 2 ^ 64 : ℕ) : ℚ) = 2 ^ (63 : ℤ) := by norm_num
  have hone : ((1 : ℕ) : ℚ) = 2 ^ (0 : ℤ) := by norm_num
  have hquot : quotient (1 * 2 ^ 63 % 2 ^ 64) 1 = 2 ^ 63 := by
    rw [quotient, hround, hone, Binary32.round_two_zpow, Binary32.round_two_zpow,
      ← zpow_sub₀ (by norm_num), Binary32.round_two_zpow]
    norm_num
  change getSizeInBlocks (1 * 2 ^ 63 % 2 ^ 64) 1 = 2 ^ 63
  rw [getSizeInBlocks_of_lt (by rw [hquot]; norm_num), hquot]

/-- A request that no table can serve is not refused with `bad_alloc`: the search pattern
itself cannot be built. -/
theorem oversized_request_not_refused :
    ¬ bytePool.HasRun (bytePool.blocksOf 1 (2 ^ 63)) ∧
    bytePool.allocate 1 (2 ^ 63) = (bytePool, .error .lengthError) := by
  have hmax : maxSize < bytePool.blocksOf 1 (2 ^ 63) := by rw [blocksOf_bytePool]; decide
  refine ⟨?_, ?_⟩
  · rintro ⟨pos, hpos⟩
    rw [blocksOf_bytePool] at hpos
    have hcell := hpos (pos + 1) (by rw [Segment.mem_iff]; dsimp only; omega)
    simp [bytePool] at hcell
  · simp only [ShMemState.allocate, findFreeBlocks, if_pos hmax]
    rfl

end Sphere.Shmem
