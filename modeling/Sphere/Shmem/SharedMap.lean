import Sphere.Lib.Layout
import Sphere.Shmem.Heap

/-! The segment of a `SharedMap`: its length is asked of `mmap` as one sum, and the addresses
of what it holds are computed one by one, all modulo 2⁶⁴. -/

namespace Sphere.Shmem

open Lib Lib.Transition

/-- `sizeof` of what the constructor places in the segment. -/
structure Sizes where
  semaphore : ℕ
  shMemState : ℕ
  shMap : ℕ
  deriving DecidableEq, Repr

/-- What `mmap` answers: an `errno`, or the address of as many bytes as were asked for. -/
def MMap (length : ℕ) : Type := Except ℕ {addr : ℕ // 0 < length ∧ addr + length ≤ 2 ^ 64}

/-- With the `errno` whose text the exception carries. -/
inductive MapError
  | mMapError (errno : ℕ)
  | semaphoreError (errno : ℕ)
  deriving DecidableEq, Repr

/-- The mapping, and the pointers into it. -/
structure SharedMap where
  sizes : Sizes
  mmap : Segment
  s : ℕ
  shState : ℕ
  blockSize : ℕ
  blocksCount : ℕ
  usedBlocksTable : ℕ
  pMap : ℕ
  firstBlock : ℕ
  deriving DecidableEq, Repr

namespace SharedMap

/-- The argument of `ShMMap`. -/
def length (sizes : Sizes) (blockSize blockCount : ℕ) : ℕ :=
  (sizes.semaphore + sizes.shMemState + blockCount + sizes.shMap + blockSize * blockCount) % 2 ^ 64

/-- The constructor, with the answers of `mmap` and `sem_init`. -/
def make (sizes : Sizes) (blockSize blockCount : ℕ)
    (mmap : MMap (length sizes blockSize blockCount)) (semInit : Except ℕ Unit) :
    Except MapError SharedMap :=
  match mmap, semInit with
  | .error errno, _ => .error (.mMapError errno)
  | .ok _, .error errno => .error (.semaphoreError errno)
  | .ok addr, .ok _ =>
    let usedBlocksTable := (addr.1 + sizes.semaphore + sizes.shMemState) % 2 ^ 64
    .ok
      { sizes
        mmap := ⟨addr.1, length sizes blockSize blockCount⟩
        s := addr.1
        shState := (addr.1 + sizes.semaphore) % 2 ^ 64
        blockSize
        blocksCount := blockCount
        usedBlocksTable
        pMap := (addr.1 + sizes.semaphore + sizes.shMemState + blockCount) % 2 ^ 64
        firstBlock := (usedBlocksTable + blockCount + sizes.shMap) % 2 ^ 64 }

/-- `first_block + pos * block_size` -/
def block (map : SharedMap) (pos : ℕ) : ℕ := (map.firstBlock + pos * map.blockSize) % 2 ^ 64

/-- The semaphore, the state, the table, the map and the blocks. -/
def regions (map : SharedMap) : List Segment :=
  [⟨map.s, map.sizes.semaphore⟩, ⟨map.shState, map.sizes.shMemState⟩,
    ⟨map.usedBlocksTable, map.blocksCount⟩, ⟨map.pMap, map.sizes.shMap⟩] ++
  (List.range map.blocksCount).map fun pos => ⟨map.block pos, map.blockSize⟩

/-- The pointers that `allocate` can return, whatever is in the table and is asked for. -/
def Returns [Platform] (map : SharedMap) (p : ℕ) : Prop :=
  map.blockSize ≠ 0 ∧ ∃ (table : List Char) (bytes pos : ℕ), table.length = map.blocksCount ∧
    findFreeBlocks (getSizeInBlocks bytes map.blockSize) table = .ok pos ∧ p = map.block pos

structure LaidOut [Platform] (map : SharedMap) : Prop where
  apart : map.regions.Pairwise (Layout.Apart (2 ^ 64))
  inside : ∀ r ∈ map.regions, Layout.Inside (2 ^ 64) r map.mmap
  pointers : ∀ p, map.Returns p → p ∈ map.mmap

/-- The lengths of what follows one another in the segment. -/
def lengths (sizes : Sizes) (blockSize blockCount : ℕ) : List ℕ :=
  [sizes.semaphore, sizes.shMemState, blockCount, sizes.shMap] ++
    List.replicate blockCount blockSize

/-- What the segment has to hold, as a number. -/
def total (sizes : Sizes) (blockSize blockCount : ℕ) : ℕ :=
  sizes.semaphore + sizes.shMemState + blockCount + sizes.shMap + blockSize * blockCount

theorem sum_lengths (sizes : Sizes) (blockSize blockCount : ℕ) :
    (lengths sizes blockSize blockCount).sum = total sizes blockSize blockCount := by
  rw [lengths, List.sum_append, List.sum_replicate, total, smul_eq_mul, mul_comm blockCount]
  simp only [List.sum_cons, List.sum_nil]
  omega

variable {sizes : Sizes} {blockSize blockCount : ℕ} {semInit : Except ℕ Unit} {map : SharedMap}
  {mmap : MMap (length sizes blockSize blockCount)}

/-- What the constructor makes of the address of the mapping. -/
structure Made (sizes : Sizes) (blockSize blockCount addr : ℕ) (map : SharedMap) : Prop where
  mmap : map.mmap = ⟨addr, total sizes blockSize blockCount % 2 ^ 64⟩
  fits : addr + total sizes blockSize blockCount % 2 ^ 64 ≤ 2 ^ 64
  count : map.blocksCount = blockCount
  size : map.blockSize = blockSize
  first : map.firstBlock = (addr + sizes.semaphore + sizes.shMemState + blockCount + sizes.shMap)
    % 2 ^ 64
  regions : map.regions = (Layout.place addr (lengths sizes blockSize blockCount)).map
    (Layout.wrap (2 ^ 64))

theorem make_made (h : make sizes blockSize blockCount mmap semInit = .ok map) :
    ∃ addr, Made sizes blockSize blockCount addr map := by
  unfold make at h
  split at h
  · cases h
  · cases h
  · next addr _ =>
    obtain ⟨addr, hpos, hfits⟩ := addr
    obtain rfl := Except.ok.inj h
    have hfirst : ((addr + sizes.semaphore + sizes.shMemState) % 2 ^ 64 + blockCount
        + sizes.shMap) % 2 ^ 64
        = (addr + sizes.semaphore + sizes.shMemState + blockCount + sizes.shMap) % 2 ^ 64 := by
      omega
    refine ⟨addr, rfl, hfits, rfl, rfl, hfirst, ?_⟩
    have haddr : addr % 2 ^ 64 = addr := Nat.mod_eq_of_lt (by omega)
    rw [lengths, Layout.place_append, Layout.place_replicate, List.map_append, List.map_map]
    refine congrArg₂ (· ++ ·) ?_ (List.map_congr_left fun pos _ => ?_)
    · simp only [Layout.place, List.map_cons, List.map_nil, Layout.wrap, haddr]
    · simp only [Function.comp, Layout.wrap, block, Nat.mod_add_mod, List.sum_cons,
        List.sum_nil, add_zero, add_assoc]

theorem Made.block (h : Made sizes blockSize blockCount addr map) (pos : ℕ) : map.block pos =
    (addr + sizes.semaphore + sizes.shMemState + blockCount + sizes.shMap + pos * blockSize)
      % 2 ^ 64 := by
  rw [SharedMap.block, h.first, h.size, Nat.mod_add_mod]

/-- Everything lies inside exactly when nothing of the sum was lost. -/
theorem Made.inside_iff (h : Made sizes blockSize blockCount addr map) :
    (∀ r ∈ map.regions, Layout.Inside (2 ^ 64) r map.mmap) ↔
      total sizes blockSize blockCount < 2 ^ 64 := by
  have hlen : total sizes blockSize blockCount % 2 ^ 64 < 2 ^ 64 := Nat.mod_lt _ (by norm_num)
  have hplace := Layout.place_inside_iff (w := 2 ^ 64)
    (m := ⟨addr, total sizes blockSize blockCount % 2 ^ 64⟩) h.fits hlen le_rfl
    (Nat.le_add_right _ _) (lengths sizes blockSize blockCount)
  rw [h.regions, List.forall_mem_map, h.mmap]
  simp only [Layout.inside_wrap]
  rw [hplace, sum_lengths]
  dsimp only
  omega

theorem Made.apart (h : Made sizes blockSize blockCount addr map)
    (htotal : total sizes blockSize blockCount < 2 ^ 64) :
    map.regions.Pairwise (Layout.Apart (2 ^ 64)) := by
  rw [h.regions, List.pairwise_map]
  have hfits := h.fits
  rw [Nat.mod_eq_of_lt htotal] at hfits
  refine (Layout.place_apart ?_).imp fun hr => Layout.apart_wrap.mpr hr
  rw [sum_lengths]
  exact hfits

/-- Every pointer is that of a block, unless there is none. -/
theorem Made.returns [Platform] (h : Made sizes blockSize blockCount addr map) {p : ℕ}
    (hp : map.Returns p) (hcount : 0 < blockCount) : ∃ pos < blockCount, p = map.block pos := by
  obtain ⟨-, table, bytes, pos, htable, hfind, rfl⟩ := hp
  rcases Nat.eq_zero_or_pos (getSizeInBlocks bytes map.blockSize) with hk | hk
  · rw [hk, findFreeBlocks_zero] at hfind
    obtain rfl := Except.ok.inj hfind
    exact ⟨0, hcount, rfl⟩
  · obtain ⟨-, hin, -⟩ := findFreeBlocks_ok hfind
    rw [htable, h.count] at hin
    exact ⟨pos, by omega, rfl⟩

/-- Without blocks the pointer of an empty request is the end of the segment. -/
theorem Made.returns_end [Platform] (h : Made sizes blockSize 0 addr map) (hsize : blockSize ≠ 0)
    (htotal : total sizes blockSize 0 < 2 ^ 64) :
    ∃ p, map.Returns p ∧ p ∉ map.mmap := by
  refine ⟨map.block 0, ⟨by rwa [h.size], [], 0, 0, ?_, ?_, rfl⟩, fun hmem => ?_⟩
  · rw [h.count]; rfl
  · rw [getSizeInBlocks_zero, findFreeBlocks_zero]
  · have hfits := h.fits
    rw [h.block, h.mmap, Segment.mem_iff] at hmem
    rw [Nat.mod_eq_of_lt htotal] at hmem hfits
    unfold total at hmem hfits htotal
    dsimp only at hmem
    omega

theorem Made.laid_out [Platform] (h : Made sizes blockSize blockCount addr map)
    (htotal : total sizes blockSize blockCount < 2 ^ 64) (hcount : blockCount = 0 → blockSize = 0) :
    map.LaidOut := by
  have hinside := h.inside_iff.mpr htotal
  refine ⟨h.apart htotal, hinside, fun p hp => ?_⟩
  have hsize : 0 < blockSize := by
    have := hp.1
    rw [h.size] at this
    omega
  obtain ⟨pos, hpos, rfl⟩ := h.returns hp (by omega)
  -- the pointer is the first byte of its block
  refine hinside ⟨map.block pos, map.blockSize⟩ ?_ _ ⟨0, by rwa [h.size], ?_⟩
  · refine List.mem_append_right _ (List.mem_map_of_mem (List.mem_range.mpr ?_))
    rwa [h.count]
  · rw [add_zero, SharedMap.block, Nat.mod_mod]

/-- The state of the allocator as the constructor leaves it. -/
def state (map : SharedMap) : ShMemState where
  blocksCount := map.blocksCount
  blockSize := map.blockSize
  usedBlocksTable := List.replicate map.blocksCount FREE_BLOCK
  firstBlock := map.firstBlock
  table_length := List.length_replicate

/-- The pool of the map, whatever its table has become. -/
structure Of (map : SharedMap) (s : ShMemState) : Prop where
  count : s.blocksCount = map.blocksCount
  size : s.blockSize = map.blockSize
  first : s.firstBlock = map.firstBlock

theorem Of.returns [Platform] {s s' : ShMemState} (h : map.Of s) {size n p : ℕ}
    (hok : s.allocate size n = (s', .ok p)) : map.Of s' ∧ map.Returns p := by
  unfold ShMemState.allocate at hok
  split_ifs at hok with hsize
  · cases hok
  · dsimp only at hok
    split at hok
    · cases hok
    · next pos hfind =>
      obtain ⟨rfl, hp⟩ := Prod.mk.inj hok
      refine ⟨⟨h.count, h.size, h.first⟩, ?_⟩
      have haddr : p = map.block pos := by
        rw [← Except.ok.inj hp, ShMemState.address, block, h.first, h.size]
      rw [ShMemState.blocksOf, h.size] at hfind
      exact ⟨h.size ▸ hsize, _, _, pos, s.table_length.trans h.count, hfind, haddr⟩

theorem allocate_throws [Platform] {s s' : ShMemState} {size n : ℕ} {e : AllocError}
    (h : s.allocate size n = (s', .error e)) : s' = s := by
  unfold ShMemState.allocate at h
  split_ifs at h
  · exact (Prod.mk.inj h).1.symm
  · dsimp only at h
    split at h
    · exact (Prod.mk.inj h).1.symm
    · cases (Prod.mk.inj h).2

theorem Of.step [Platform] {h h' : Heap} {c : Call}
    (ho : map.Of h.state ∧ ∀ a ∈ h.live, map.Returns a.pointer) (hstep : h.step c = some h') :
    map.Of h'.state ∧ ∀ a ∈ h'.live, map.Returns a.pointer := by
  obtain ⟨ho, hlive⟩ := ho
  cases c with
  | allocate size n =>
    rw [Heap.step] at hstep
    split at hstep
    · next s p hok =>
      obtain rfl := Option.some.inj hstep
      obtain ⟨ho', hp⟩ := ho.returns hok
      refine ⟨ho', fun a ha => ?_⟩
      rcases List.mem_cons.mp ha with rfl | ha
      · exact hp
      · exact hlive a ha
    · next s e hthrow =>
      obtain rfl := Option.some.inj hstep
      rw [allocate_throws hthrow]
      exact ⟨ho, hlive⟩
  | deallocate a =>
    rw [Heap.step] at hstep
    split_ifs at hstep
    obtain rfl := Option.some.inj hstep
    exact ⟨⟨ho.count, ho.size, ho.first⟩, fun b hb => hlive b (List.mem_of_mem_erase hb)⟩

/-- In every run of the allocator over the map the live allocations point into the segment. -/
theorem LaidOut.live_pointers [Platform] (hout : map.LaidOut) {calls : List Call} {h : Heap}
    (hrun : run Heap.step ⟨map.state, []⟩ calls = some h) :
    ∀ a ∈ h.live, a.pointer ∈ map.mmap := by
  have hreturns := run_preserves
    (I := fun h => map.Of h.state ∧ ∀ a ∈ h.live, map.Returns a.pointer)
    (fun _ _ _ ho hstep => Of.step ho hstep) ⟨⟨rfl, rfl, rfl⟩, nofun⟩ hrun
  exact fun a ha => hout.pointers _ (hreturns.2 a ha)

/-- The blocks of a segment that holds what it has to are not 2⁶⁴ bytes apart. -/
theorem Made.spans (h : Made sizes blockSize blockCount addr map)
    (htotal : total sizes blockSize blockCount < 2 ^ 64) : map.state.Spans := by
  have hpool : map.state.blocksCount * map.state.blockSize ≤ total sizes blockSize blockCount := by
    change map.blocksCount * map.blockSize ≤ _
    rw [h.count, h.size, total, mul_comm]
    omega
  exact (Nat.mul_le_mul_right _ (Nat.sub_le ..)).trans_lt (hpool.trans_lt htotal)

/-- In a segment that holds what it has to, every run of the allocator keeps the blocks of the
live allocations apart and marked, and their addresses inside. -/
theorem Made.marked [Platform] (h : Made sizes blockSize blockCount addr map)
    (htotal : total sizes blockSize blockCount < 2 ^ 64) (hsize : 0 < blockSize)
    (hcount : 0 < blockCount) {calls : List Call} {heap : Heap}
    (hrun : run Heap.step ⟨map.state, []⟩ calls = some heap) :
    heap.Marked ∧ ∀ a ∈ heap.live, a.pointer ∈ map.mmap := by
  have hpos : 0 < map.state.blockSize := hsize.trans_eq h.size.symm
  have hsound := Heap.sound_fresh hpos (h.spans htotal) rfl
  exact ⟨(hsound.run hrun).marked, (h.laid_out htotal (by omega)).live_pointers hrun⟩

end SharedMap

/-- For every block size and count for which the constructor succeeds: what it places in the
segment and all the blocks lie inside, apart from one another, and so does every pointer of
`allocate`, if and only if the length that the segment has to have is below 2⁶⁴ and there is
a block, unless blocks have no bytes. -/
theorem shared_map_laid_out_iff [Platform] (sizes : Sizes) (blockSize blockCount : ℕ)
    (mmap : MMap (SharedMap.length sizes blockSize blockCount)) (semInit : Except ℕ Unit)
    (map : SharedMap)
    (hmake : SharedMap.make sizes blockSize blockCount mmap semInit = .ok map) :
    map.LaidOut ↔ SharedMap.total sizes blockSize blockCount < 2 ^ 64 ∧
      (blockCount = 0 → blockSize = 0) := by
  obtain ⟨addr, h⟩ := SharedMap.make_made hmake
  constructor
  · intro hout
    have htotal := h.inside_iff.mp hout.inside
    refine ⟨htotal, fun hcount => ?_⟩
    subst hcount
    by_contra hsize
    obtain ⟨p, hp, hnot⟩ := h.returns_end hsize htotal
    exact hnot (hout.pointers p hp)
  · exact fun ⟨htotal, hcount⟩ => h.laid_out htotal hcount

open scoped Gnu

/-- `sizeof` on x86-64. -/
def wordSizes : Sizes := ⟨32, 32, 56⟩

theorem shared_map_laid_out_small :
    ∃ map, SharedMap.make wordSizes 48 1 (.ok ⟨4096, by decide⟩) (.ok ()) = .ok map ∧
      map.LaidOut := by
  refine ⟨_, rfl, ?_⟩
  exact (shared_map_laid_out_iff wordSizes 48 1 (.ok ⟨4096, by decide⟩) (.ok ()) _ rfl).mpr
    (by decide)

/-- Two blocks of 2⁶³ bytes take none of the length, and the second one lies far behind the
segment. -/
theorem blocks_behind_segment :
    ∃ map, SharedMap.make wordSizes (2 ^ 63) 2 (.ok ⟨4096, by decide⟩) (.ok ()) = .ok map ∧
      map.mmap = ⟨4096, 122⟩ ∧ map.Returns (4218 + 2 ^ 63) ∧ ¬ map.LaidOut := by
  have hex : ∃ map,
      SharedMap.make wordSizes (2 ^ 63) 2 (.ok ⟨4096, by decide⟩) (.ok ()) = .ok map ∧
        map.mmap = ⟨4096, 122⟩ ∧ map.Returns (4218 + 2 ^ 63) := by
    refine ⟨_, rfl, ?_, ?_⟩
    · rfl
    · refine ⟨?_, ['1', '0'], 1, 1, rfl, ?_, ?_⟩
      · decide
      · decide +kernel
      · decide
  refine hex.imp fun map h => ⟨h.1, h.2.1, h.2.2, fun hout => ?_⟩
  have hmem := hout.pointers _ h.2.2
  rw [h.2.1] at hmem
  have hlt : 4218 + 2 ^ 63 < 4096 + 122 := (Segment.mem_iff.mp hmem).2
  omega

end Sphere.Shmem
