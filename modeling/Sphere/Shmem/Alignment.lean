import Sphere.Shmem.Covering
import Sphere.Shmem.SharedMap

/-! The addresses that the types placed in the segment ask for. The constructor puts the
table of `blocksCount` characters in front of the map and the pool and rounds nothing up, so
both numbers of the caller shift what lies behind. -/

namespace Sphere.Shmem

open Lib Lib.Transition

/-- `sizeof(T)` and `alignof(T)`: an array of `T` is aligned if its first element is. -/
structure ElemType where
  size : ℕ
  align : ℕ
  size_pos : 0 < size
  align_dvd : align ∣ size

/-- What the allocator of a map goes by: the table, and the live allocations. -/
structure Blocks where
  table : List Char
  live : List Allocation
  deriving DecidableEq, Repr

namespace SharedMap

/-! The allocator over a map. -/

section

variable [Platform]

def allocate (map : SharedMap) (table : List Char) (size n : ℕ) :
    List Char × Except AllocError ℕ :=
  if map.blockSize = 0 then (table, .error .badAlloc)
  else
    let blocksNeeded := getSizeInBlocks (size * n % 2 ^ 64) map.blockSize
    match findFreeBlocks blocksNeeded table with
    | .error e => (table, .error e)
    | .ok blocksPos =>
      (memset table blocksPos USED_BLOCK blocksNeeded, .ok (map.block blocksPos))

def deallocate (map : SharedMap) (table : List Char) (p size n : ℕ) : List Char :=
  let offset := (((p : ℤ) - map.firstBlock) % 2 ^ 64).toNat / map.blockSize
  memset table offset FREE_BLOCK (getSizeInBlocks (size * n % 2 ^ 64) map.blockSize)

/-- The calls are those of `Heap.step`. -/
def step (map : SharedMap) (b : Blocks) : Call → Option Blocks
  | .allocate size n =>
    match map.allocate b.table size n with
    | (table, .ok p) => some ⟨table, ⟨p, size, n⟩ :: b.live⟩
    | (table, .error _) => some ⟨table, b.live⟩
  | .deallocate a =>
    if a ∈ b.live then some ⟨map.deallocate b.table a.pointer a.size a.n, b.live.erase a⟩
    else none

/-- The table as the constructor fills it. -/
def start (map : SharedMap) : Blocks := ⟨List.replicate map.blocksCount FREE_BLOCK, []⟩

variable {map : SharedMap}

theorem Of.allocate {s : ShMemState} (h : map.Of s) (size n : ℕ) :
    map.allocate s.usedBlocksTable size n =
      ((s.allocate size n).1.usedBlocksTable, (s.allocate size n).2) := by
  unfold SharedMap.allocate ShMemState.allocate ShMemState.blocksOf
  rw [h.size]
  by_cases hsize : map.blockSize = 0
  · rw [if_pos hsize, if_pos hsize]
  · rw [if_neg hsize, if_neg hsize]
    dsimp only
    cases findFreeBlocks (getSizeInBlocks (size * n % 2 ^ 64) map.blockSize) s.usedBlocksTable with
    | error e => rfl
    | ok pos =>
      have haddr : map.block pos = s.address pos := by
        rw [block, ShMemState.address, h.first, h.size]
      exact Prod.ext rfl (congrArg Except.ok haddr)

theorem Of.deallocate {s : ShMemState} (h : map.Of s) (p size n : ℕ) :
    map.deallocate s.usedBlocksTable p size n = (s.deallocate p size n).usedBlocksTable := by
  unfold SharedMap.deallocate ShMemState.deallocate ShMemState.offset ShMemState.blocksOf
  rw [h.first, h.size]
  rfl

end

end SharedMap

def Heap.blocks (h : Heap) : Blocks := ⟨h.state.usedBlocksTable, h.live⟩

namespace SharedMap

variable [Platform] {map : SharedMap}

theorem Of.blocks_step {h : Heap} (ho : map.Of h.state) (c : Call) :
    map.step h.blocks c = (h.step c).map Heap.blocks := by
  cases c with
  | allocate size n =>
    have hstep : map.step h.blocks (.allocate size n) =
        match map.allocate h.state.usedBlocksTable size n with
        | (table, .ok p) => some ⟨table, ⟨p, size, n⟩ :: h.live⟩
        | (table, .error _) => some ⟨table, h.live⟩ := rfl
    rw [hstep, ho.allocate, Heap.step]
    rcases h.state.allocate size n with ⟨s, e | p⟩
    · rfl
    · rfl
  | deallocate a =>
    have hstep : map.step h.blocks (.deallocate a) =
        if a ∈ h.live then
          some ⟨map.deallocate h.state.usedBlocksTable a.pointer a.size a.n, h.live.erase a⟩
        else none := rfl
    rw [hstep, ho.deallocate, Heap.step]
    split_ifs
    · rfl
    · rfl

/-- The runs over the map are those of the heap on its state. -/
theorem run_blocks (calls : List Call) :
    run map.step map.start calls = (run Heap.step ⟨map.state, []⟩ calls).map Heap.blocks := by
  suffices hrun : ∀ (calls : List Call) (h : Heap),
      (map.Of h.state ∧ ∀ a ∈ h.live, map.Returns a.pointer) →
      run map.step h.blocks calls = (run Heap.step h calls).map Heap.blocks from
    hrun calls ⟨map.state, []⟩ ⟨⟨rfl, rfl, rfl⟩, nofun⟩
  intro calls
  induction calls with
  | nil => exact fun _ _ => rfl
  | cons c calls ih =>
    intro h ho
    rw [run, run, ho.1.blocks_step]
    cases hstep : h.step c with
    | none => rfl
    | some h' => exact ih h' (Of.step ho hstep)

/-- A run over a map whose segment holds what it has to leaves its live allocations marked, and
their addresses inside. -/
theorem Made.run_marked {sizes : Sizes} {blockSize blockCount addr : ℕ}
    (h : Made sizes blockSize blockCount addr map)
    (htotal : total sizes blockSize blockCount < 2 ^ 64) (hsize : 0 < blockSize)
    (hcount : 0 < blockCount) {calls : List Call} {b : Blocks}
    (hrun : run map.step map.start calls = some b) :
    ∃ heap : Heap, b = heap.blocks ∧ heap.Marked ∧ ∀ a ∈ b.live, a.pointer ∈ map.mmap := by
  rw [run_blocks] at hrun
  obtain ⟨heap, hheap, rfl⟩ := Option.map_eq_some_iff.mp hrun
  obtain ⟨hmarked, hinside⟩ := h.marked htotal hsize hcount hheap
  exact ⟨heap, rfl, hmarked, hinside⟩

/-! Which addresses are aligned. -/

/-- The map holds pointers, so its alignment is eight. -/
structure Aligned (map : SharedMap) : Prop where
  pMap : 8 ∣ map.pMap
  pointers : ∀ calls b, run map.step map.start calls = some b →
    ∀ (T : ElemType) (n p : ℕ), T.align ∈ [1, 2, 4, 8] →
      (map.allocate b.table T.size n).2 = .ok p → T.align ∣ p

theorem allocate_cases (map : SharedMap) (table : List Char) (size n : ℕ) :
    (∃ e, map.allocate table size n = (table, .error e)) ∨
    ∃ pos, map.blockSize ≠ 0 ∧
      findFreeBlocks (getSizeInBlocks (size * n % 2 ^ 64) map.blockSize) table = .ok pos ∧
      map.allocate table size n =
        (memset table pos USED_BLOCK (getSizeInBlocks (size * n % 2 ^ 64) map.blockSize),
          .ok (map.block pos)) := by
  by_cases hsize : map.blockSize = 0
  · exact .inl ⟨.badAlloc, by rw [SharedMap.allocate, if_pos hsize]⟩
  cases hfind : findFreeBlocks (getSizeInBlocks (size * n % 2 ^ 64) map.blockSize) table with
  | error e =>
    refine .inl ⟨e, ?_⟩
    simp only [SharedMap.allocate, if_neg hsize, hfind]
  | ok pos =>
    refine .inr ⟨pos, hsize, rfl, ?_⟩
    simp only [SharedMap.allocate, if_neg hsize, hfind]

theorem step_length {b b' : Blocks} {c : Call} (h : map.step b c = some b') :
    b'.table.length = b.table.length := by
  cases c with
  | allocate size n =>
    rw [SharedMap.step] at h
    rcases map.allocate_cases b.table size n with ⟨e, hthrow⟩ | ⟨pos, -, -, hok⟩
    · rw [hthrow] at h
      obtain rfl := Option.some.inj h
      rfl
    · rw [hok] at h
      obtain rfl := Option.some.inj h
      exact length_memset ..
  | deallocate a =>
    rw [SharedMap.step] at h
    split_ifs at h
    obtain rfl := Option.some.inj h
    exact length_memset ..

theorem run_length {calls : List Call} {b : Blocks}
    (h : run map.step map.start calls = some b) : b.table.length = map.blocksCount :=
  run_preserves (I := fun b => b.table.length = map.blocksCount)
    (fun _ _ _ hb hstep => (step_length hstep).trans hb) List.length_replicate h

/-- A table whose first block is taken. -/
def firstTaken (map : SharedMap) : List Char :=
  List.replicate 1 USED_BLOCK ++ List.replicate (map.blocksCount - 1) FREE_BLOCK

/-- A single character takes the first block. -/
theorem run_first (hsize : 0 < map.blockSize) (hcount : 0 < map.blocksCount) :
    ∃ b, run map.step map.start [.allocate 1 1] = some b ∧ b.table = map.firstTaken := by
  have hone : getSizeInBlocks (1 * 1 % 2 ^ 64) map.blockSize = 1 := getSizeInBlocks_one hsize
  obtain ⟨count, hsucc⟩ := Nat.exists_eq_succ_of_ne_zero hcount.ne'
  have htwo := Platform.two_le
  have hfind : findFreeBlocks 1 (List.replicate map.blocksCount FREE_BLOCK) = .ok 0 :=
    findFreeBlocks_taken one_pos (by omega) (by omega) 0
  have hok : map.allocate map.start.table 1 1 = (map.firstTaken, .ok (map.block 0)) := by
    unfold SharedMap.allocate start
    rw [if_neg hsize.ne', hone]
    simp only [hfind]
    rw [firstTaken, hsucc]
    rfl
  refine ⟨⟨map.firstTaken, [⟨map.block 0, 1, 1⟩]⟩, ?_, rfl⟩
  rw [run, step, hok]
  rfl

/-- The pointer to the second block, which the next request gets. -/
theorem Aligned.double (h : map.Aligned) (hfirst : 8 ∣ map.firstBlock)
    (hcount : 3 ≤ map.blocksCount) {d : ℕ} (hd : d = 1 ∨ d = 2 ∨ d = 4)
    (hdvd : d ∣ map.blockSize) : 2 * d ∣ map.blockSize := by
  rcases Nat.eq_zero_or_pos map.blockSize with hzero | hsize
  · rw [hzero]
    exact dvd_zero _
  have hpos : 0 < d := by omega
  have hdle : d ≤ Binary32.nearest map.blockSize := by
    have hlog : 2 ^ Nat.log 2 d = d := by
      rcases hd with rfl | rfl | rfl
      · decide +kernel
      · decide +kernel
      · decide +kernel
    calc d = 2 ^ Nat.log 2 d := hlog.symm
      _ ≤ 2 ^ Nat.log 2 map.blockSize :=
        Nat.pow_le_pow_right (by norm_num) (Nat.log_mono_right (Nat.le_of_dvd hsize hdvd))
      _ ≤ Binary32.nearest map.blockSize := Binary32.pow_log_le_nearest hsize
  have hbytes : 2 * d * 1 % 2 ^ 64 = 2 * d := by omega
  have htwo : getSizeInBlocks (2 * d) map.blockSize ≤ 2 := by
    refine getSizeInBlocks_le (by omega) hsize (by norm_num) (by norm_num) ?_
    rw [Binary32.nearest_of_le (by omega)]
    omega
  have hneeded : 0 < getSizeInBlocks (2 * d) map.blockSize :=
    getSizeInBlocks_pos (by omega) (by omega) hsize
  obtain ⟨b, hrun, htable⟩ := run_first hsize (by omega)
  let T : ElemType := ⟨2 * d, 2 * d, by omega, dvd_rfl⟩
  have hok : (map.allocate b.table T.size 1).2 = .ok (map.block 1) := by
    unfold SharedMap.allocate
    rw [if_neg hsize.ne', htable, firstTaken]
    simp only [T, hbytes, findFreeBlocks_taken hneeded (htwo.trans Platform.two_le)
      (htwo.trans (by omega : 2 ≤ map.blocksCount - 1)) 1]
  have halign : 2 * d ∣ map.block 1 := h.pointers _ b hrun T 1 _ (by simp [T]; omega) hok
  have height : 2 * d ∣ 8 := by
    rcases hd with rfl | rfl | rfl <;> decide
  rw [block, one_mul] at halign
  have hsum : 2 * d ∣ map.firstBlock + map.blockSize :=
    (Nat.dvd_mod_iff (height.trans (by decide))).mp halign
  exact (Nat.dvd_add_right (height.trans hfirst)).mp hsum

theorem Aligned.blockSize (h : map.Aligned) (hfirst : 8 ∣ map.firstBlock)
    (hcount : 3 ≤ map.blocksCount) : 8 ∣ map.blockSize := by
  have htwo := h.double hfirst hcount (.inl rfl) (one_dvd _)
  have hfour := h.double hfirst hcount (.inr (.inl rfl)) htwo
  exact h.double hfirst hcount (.inr (.inr rfl)) hfour

/-- Every block starts at a multiple of eight, if the pool does and its blocks are as long,
or if there is only the place of the first one. -/
theorem aligned_of (hmap : 8 ∣ map.pMap) (hfirst : 8 ∣ map.firstBlock)
    (hblocks : map.blocksCount = 0 ∨ 8 ∣ map.blockSize) : map.Aligned := by
  refine ⟨hmap, fun calls b hrun T n p hT hok => ?_⟩
  have height : T.align ∣ 8 := by
    simp only [List.mem_cons, List.not_mem_nil, or_false] at hT
    rcases hT with h | h | h | h <;> rw [h] <;> decide
  rcases map.allocate_cases b.table T.size n with ⟨e, hthrow⟩ | ⟨pos, -, hfind, hp⟩
  · rw [hthrow] at hok
    cases hok
  · rw [hp] at hok
    obtain rfl := Except.ok.inj hok
    have hoffset : 8 ∣ pos * map.blockSize := by
      rcases hblocks with hcount | hsize
      · obtain ⟨-, hin, -⟩ := findFreeBlocks_ok hfind
        rw [run_length hrun, hcount] at hin
        obtain rfl : pos = 0 := by omega
        rw [zero_mul]
        exact dvd_zero _
      · exact hsize.mul_left pos
    exact height.trans ((Nat.dvd_mod_iff (by decide)).mpr (hfirst.add hoffset))

end SharedMap

/-- In a page-aligned mapping, with sizes that are multiples of eight: the map and every
pointer of `allocate` after any calls are aligned if and only if the number of blocks is a
multiple of eight and, unless it is zero, so is their size. -/
theorem shared_map_aligned_iff [Platform] (sizes : Sizes) (hsemaphore : 8 ∣ sizes.semaphore)
    (hstate : 8 ∣ sizes.shMemState) (hshMap : 8 ∣ sizes.shMap) (blockSize blockCount : ℕ)
    (addr : {addr : ℕ // 0 < SharedMap.length sizes blockSize blockCount ∧
      addr + SharedMap.length sizes blockSize blockCount ≤ 2 ^ 64})
    (hpage : 4096 ∣ addr.1) (semInit : Except ℕ Unit) (map : SharedMap)
    (hmake : SharedMap.make sizes blockSize blockCount (.ok addr) semInit = .ok map) :
    map.Aligned ↔ 8 ∣ blockCount ∧ (blockCount = 0 ∨ 8 ∣ blockSize) := by
  obtain ⟨hcount, hsize, hmap, hfirst⟩ : map.blocksCount = blockCount ∧
      map.blockSize = blockSize ∧ (8 ∣ map.pMap ↔ 8 ∣ blockCount) ∧
      (8 ∣ map.firstBlock ↔ 8 ∣ blockCount) := by
    cases semInit with
    | error errno => cases hmake
    | ok =>
      obtain rfl := Except.ok.inj hmake
      refine ⟨rfl, rfl, ?_, ?_⟩
      · dsimp only
        omega
      · dsimp only
        omega
  constructor
  · intro h
    have hdvd := hmap.mp h.pMap
    refine ⟨hdvd, or_iff_not_imp_left.mpr fun hne => ?_⟩
    rw [← hsize]
    exact h.blockSize (hfirst.mpr hdvd) (by omega)
  · rintro ⟨hdvd, hblocks⟩
    rw [← hcount, ← hsize] at hblocks
    exact SharedMap.aligned_of (hmap.mpr hdvd) (hfirst.mpr hdvd) hblocks

open scoped Gnu

/-- 64 blocks of 64 bytes. -/
theorem shared_map_aligned_word :
    ∃ map, SharedMap.make wordSizes 64 64 (.ok ⟨4096, by decide⟩) (.ok ()) = .ok map ∧
      map.Aligned := by
  refine ⟨_, rfl, ?_⟩
  exact (shared_map_aligned_iff wordSizes (by decide) (by decide) (by decide) 64 64
    ⟨4096, by decide⟩ (by decide) (.ok ()) _ rfl).mpr (by decide)

/-- With ten blocks of 256 bytes, as in the tests, the map is two bytes behind an aligned
address. With eight blocks of twelve bytes the map is aligned, and the second object of eight
bytes is not. -/
theorem map_misaligned :
    (∃ map, SharedMap.make wordSizes 256 10 (.ok ⟨4096, by decide⟩) (.ok ()) = .ok map ∧
      map.pMap = 4170 ∧ ¬ map.Aligned) ∧
    ∃ map, SharedMap.make wordSizes 12 8 (.ok ⟨4096, by decide⟩) (.ok ()) = .ok map ∧
      map.pMap = 4168 ∧ (∃ b, run map.step map.start [.allocate 8 1] = some b ∧
        (map.allocate b.table 8 1).2 = .ok 4236) ∧ ¬ map.Aligned := by
  constructor
  · refine ⟨_, rfl, rfl, fun h => ?_⟩
    have hmap : 8 ∣ 4170 := h.pMap
    omega
  · obtain ⟨map, hmake, hmap, hrun⟩ : ∃ map,
        SharedMap.make wordSizes 12 8 (.ok ⟨4096, by decide⟩) (.ok ()) = .ok map ∧
        map.pMap = 4168 ∧ (run map.step map.start [.allocate 8 1]).map
          (fun b => (map.allocate b.table 8 1).2) = some (.ok 4236) :=
      ⟨_, rfl, rfl, by decide +kernel⟩
    obtain ⟨b, hb, hok⟩ := Option.map_eq_some_iff.mp hrun
    refine ⟨map, hmake, hmap, ⟨b, hb, hok⟩, fun h => ?_⟩
    have hpointer : 8 ∣ 4236 :=
      h.pointers _ b hb ⟨8, 8, by norm_num, dvd_rfl⟩ 1 4236 (by decide) hok
    omega

end Sphere.Shmem
