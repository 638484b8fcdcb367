import Sphere.Lib.Binary32
import Sphere.Lib.Search
import Sphere.Lib.Segment
import Sphere.Lib.Transition

/-! `ShAlloc`: blocks of a shared pool, handed out by a search for a run of free
characters in the table of used blocks and returned by writing the run back. -/

namespace Sphere.Shmem

open Lib Lib.Transition

def USED_BLOCK : Char := '1'
def FREE_BLOCK : Char := '0'

theorem USED_BLOCK_ne_FREE_BLOCK : USED_BLOCK ≠ FREE_BLOCK := by decide

/-- The pool of `blocksCount` blocks starts at address `firstBlock`. -/
structure ShMemState where
  blocksCount : ℕ
  blockSize : ℕ
  usedBlocksTable : List Char
  firstBlock : ℕ
  table_length : usedBlocksTable.length = blocksCount

inductive AllocError
  | badAlloc
  | lengthError
  deriving DecidableEq, Repr

/-- What is left to the platform: `std::string::max_size`, a difference of pointers, and what
a `float` of 2⁶⁴, which no `size_t` holds, is converted to. -/
class Platform where
  maxSize : ℕ
  overflow : ℕ
  two_le : 2 ≤ maxSize
  lt : maxSize < 2 ^ 63

/-- libstdc++ on x86-64. -/
@[reducible] def gnu : Platform := ⟨2 ^ 62 - 1, 0, by norm_num, by norm_num⟩

namespace Gnu

scoped instance : Platform := gnu

end Gnu

/-- The operands are converted to `float`, and so is the quotient. -/
def quotient (bytes blockSize : ℕ) : ℕ :=
  ⌈Binary32.round (Binary32.round bytes / Binary32.round blockSize)⌉₊

theorem quotient_pos {bytes blockSize : ℕ} (hbytes : 0 < bytes) (hsize : 0 < blockSize) :
    0 < quotient bytes blockSize := by
  have hb := Binary32.nearest_pos hbytes
  have hs := Binary32.nearest_pos hsize
  rw [quotient, Binary32.round_natCast, Binary32.round_natCast, Nat.ceil_pos]
  have hq : (0 : ℚ) < Binary32.nearest bytes / Binary32.nearest blockSize :=
    div_pos (by exact_mod_cast hb) (by exact_mod_cast hs)
  exact (mul_pos (by norm_num) (Binary32.ulp_pos _)).trans_le (Binary32.round_binade hq).1

theorem quotient_zero (blockSize : ℕ) : quotient 0 blockSize = 0 := by
  rw [quotient, Nat.cast_zero, Binary32.round_zero, zero_div, Binary32.round_zero, Nat.ceil_zero]

/-- The quotient is at most `m` when it is so before it is rounded. -/
theorem quotient_le {bytes blockSize m : ℕ} (hbytes : 0 < bytes) (hsize : 0 < blockSize)
    (hm : 0 < m) (hlead : Binary32.lead m * 2 ^ Nat.log 2 m = m * 2 ^ 23)
    (h : Binary32.nearest bytes ≤ m * Binary32.nearest blockSize) :
    quotient bytes blockSize ≤ m := by
  have hb := Binary32.nearest_pos hbytes
  have hs := Binary32.nearest_pos hsize
  rw [quotient, Nat.ceil_le, Binary32.round_natCast, Binary32.round_natCast,
    Binary32.round_div_le_iff hb hs hm]
  left
  have hpow : 0 < 2 ^ Nat.log 2 m := by positivity
  calc 2 ^ 24 * Binary32.nearest bytes
      ≤ 2 ^ 24 * (m * Binary32.nearest blockSize) := Nat.mul_le_mul_left _ h
    _ = 2 * (m * 2 ^ 23) * Binary32.nearest blockSize := by ring
    _ < (2 * (m * 2 ^ 23) + 2 ^ Nat.log 2 m) * Binary32.nearest blockSize :=
        Nat.mul_lt_mul_of_pos_right (by omega) hs
    _ = (2 * Binary32.lead m + 1) * 2 ^ Nat.log 2 m * Binary32.nearest blockSize := by
        rw [← hlead]; ring

/-- Whether the quotient is a `size_t`: it is, unless blocks have one byte and the bytes are
rounded up to 2⁶⁴. -/
def Converts (bytes blockSize : ℕ) : Prop := blockSize ≠ 1 ∨ bytes < 2 ^ 64 - 2 ^ 39

instance (bytes blockSize : ℕ) : Decidable (Converts bytes blockSize) :=
  inferInstanceAs (Decidable (_ ∨ _))

theorem quotient_lt_iff {bytes blockSize : ℕ} (hbytes : bytes < 2 ^ 64) (hsize : 0 < blockSize) :
    quotient bytes blockSize < 2 ^ 64 ↔ Converts bytes blockSize := by
  rcases Nat.eq_zero_or_pos bytes with rfl | hpos
  · exact iff_of_true (by rw [quotient_zero]; norm_num) (.inr (by norm_num))
  obtain ⟨hiff, hle⟩ := Binary32.nearest_lt_two_pow_iff (by norm_num : 25 ≤ 64) hbytes
  have hmax := Binary32.nearest_le_two_pow hbytes
  rcases eq_or_ne blockSize 1 with rfl | hne
  · have hone : Binary32.nearest 1 = 1 := Binary32.nearest_of_le (by norm_num)
    constructor
    · intro hq
      refine .inr (hiff.mp ?_)
      by_contra hge
      have htop : Binary32.nearest bytes = 2 ^ 64 := by omega
      have hround : quotient bytes 1 = 2 ^ 64 := by
        rw [quotient, Binary32.round_natCast, Binary32.round_natCast, hone, htop, Nat.cast_one,
          div_one]
        have hzpow : ((2 ^ 64 : ℕ) : ℚ) = 2 ^ (64 : ℤ) := by norm_num
        rw [hzpow, Binary32.round_two_zpow, ← hzpow, Nat.ceil_natCast]
      omega
    · intro hc
      have hlt := hiff.mpr (hc.resolve_left fun h => h rfl)
      have hq : quotient bytes 1 ≤ 2 ^ 64 - 2 ^ 40 :=
        quotient_le hpos one_pos (by norm_num) (by decide +kernel)
          (by rw [hone, mul_one]; exact hle hlt)
      omega
  · refine iff_of_true ?_ (.inl hne)
    have htwo : 2 ≤ Binary32.nearest blockSize :=
      calc 2 ≤ 2 ^ Nat.log 2 blockSize :=
            Nat.le_self_pow (Nat.log_pos (by norm_num) (by omega)).ne' 2
        _ ≤ Binary32.nearest blockSize := Binary32.pow_log_le_nearest hsize
    have hq : quotient bytes blockSize ≤ 2 ^ 63 :=
      quotient_le hpos hsize (by norm_num) (by decide +kernel) (by omega)
    omega

theorem replicate_infix_of_window {n pos : ℕ} {c : Char} {t : List Char}
    (h : ∀ i ∈ (⟨pos, n⟩ : Segment), t[i]? = some c) : List.replicate n c <:+: t := by
  have hpre : List.replicate n c <+: t.drop pos := by
    refine List.prefix_iff_getElem?.mpr fun i hi => ?_
    rw [List.length_replicate] at hi
    rw [List.getElem?_drop, List.getElem_replicate]
    exact h _ (by rw [Segment.mem_iff]; dsimp only; omega)
  exact hpre.isInfix.trans (List.drop_suffix _ _).isInfix

section

variable [Platform]

open Platform (maxSize)

/-- From a `float` that is a whole number. -/
def toSizeT (x : ℕ) : ℕ := if x < 2 ^ 64 then x else Platform.overflow

def getSizeInBlocks (bytes blockSize : ℕ) : ℕ := toSizeT (quotient bytes blockSize)

theorem getSizeInBlocks_of_lt {bytes blockSize : ℕ} (h : quotient bytes blockSize < 2 ^ 64) :
    getSizeInBlocks bytes blockSize = quotient bytes blockSize := if_pos h

theorem getSizeInBlocks_zero (blockSize : ℕ) : getSizeInBlocks 0 blockSize = 0 := by
  rw [getSizeInBlocks, quotient_zero]
  exact if_pos (by norm_num)

/-- As many blocks are enough as hold the bytes after both sizes are rounded. -/
theorem getSizeInBlocks_le {bytes blockSize m : ℕ} (hbytes : 0 < bytes) (hsize : 0 < blockSize)
    (hm : 0 < m) (hlt : m < 2 ^ 24)
    (h : Binary32.nearest bytes ≤ m * Binary32.nearest blockSize) :
    getSizeInBlocks bytes blockSize ≤ m := by
  have hle := quotient_le hbytes hsize hm (Binary32.lead_mul hlt) h
  rwa [getSizeInBlocks_of_lt (by omega)]

theorem getSizeInBlocks_pos {bytes blockSize : ℕ} (hbytes : 0 < bytes) (hle : bytes ≤ 2 ^ 24)
    (hsize : 0 < blockSize) : 0 < getSizeInBlocks bytes blockSize := by
  rw [getSizeInBlocks_of_lt ((quotient_lt_iff (by omega) hsize).mpr (.inr (by omega)))]
  exact quotient_pos hbytes hsize

theorem getSizeInBlocks_one {blockSize : ℕ} (hsize : 0 < blockSize) :
    getSizeInBlocks 1 blockSize = 1 := by
  have hpos := getSizeInBlocks_pos one_pos (by norm_num) hsize
  have hle : getSizeInBlocks 1 blockSize ≤ 1 := by
    refine getSizeInBlocks_le one_pos hsize one_pos (by norm_num) ?_
    rw [Binary32.nearest_of_le (by norm_num), one_mul]
    exact Binary32.nearest_pos hsize
  omega

def findFreeBlocks (blocksCount : ℕ) (usedTable : List Char) : Except AllocError ℕ :=
  -- the pattern is a `std::string` of `blocksCount` characters
  if maxSize < blocksCount then .error .lengthError
  else match Search.find (List.replicate blocksCount FREE_BLOCK) usedTable with
    | none => .error .badAlloc
    | some pos => .ok pos

/-- The search finds a window of free blocks inside the table, or there is none. -/
theorem findFreeBlocks_ok {n pos : ℕ} {t : List Char} (h : findFreeBlocks n t = .ok pos) :
    n ≤ maxSize ∧ pos + n ≤ t.length ∧
      ∀ i ∈ (⟨pos, n⟩ : Segment), t[i]? = some FREE_BLOCK := by
  unfold findFreeBlocks at h
  split_ifs at h with hmax
  refine ⟨not_lt.mp hmax, ?_⟩
  split at h
  · cases h
  · next k hk =>
    obtain rfl : k = pos := by simpa using h
    obtain ⟨a, b, rfl, rfl⟩ := Search.find_some_prefix hk
    refine ⟨by simp, fun i hi => ?_⟩
    obtain ⟨hge, hlt⟩ := Segment.mem_iff.mp hi
    dsimp only at hge hlt
    rw [List.append_assoc, List.getElem?_append_right hge,
      List.getElem?_append_left (by rw [List.length_replicate]; omega),
      List.getElem?_replicate, if_pos (by omega)]

/-- A request for no blocks gets the first position. -/
theorem findFreeBlocks_zero (table : List Char) : findFreeBlocks 0 table = .ok 0 := by
  cases table <;> rfl

/-- The search passes over the blocks in front that are taken. -/
theorem findFreeBlocks_taken {k count : ℕ} (hk : 0 < k) (hmax : k ≤ maxSize) (hle : k ≤ count)
    (j : ℕ) :
    findFreeBlocks k (List.replicate j USED_BLOCK ++ List.replicate count FREE_BLOCK) = .ok j := by
  have hprefix : List.replicate k FREE_BLOCK <+: List.replicate count FREE_BLOCK :=
    List.prefix_replicate_iff.mpr ⟨by rwa [List.length_replicate], by rw [List.length_replicate]⟩
  have hfind : Search.find (List.replicate k FREE_BLOCK)
      (List.replicate j USED_BLOCK ++ List.replicate count FREE_BLOCK) = some j := by
    induction j with
    | zero => exact Search.find_zero_iff.mpr hprefix
    | succ j ih =>
      rw [List.replicate_succ, List.cons_append, Search.find, if_neg, ih]
      · rfl
      · rw [List.isPrefixOf_iff_prefix]
        obtain ⟨i, rfl⟩ := Nat.exists_eq_succ_of_ne_zero hk.ne'
        rw [List.replicate_succ, List.cons_prefix_cons]
        exact fun h => USED_BLOCK_ne_FREE_BLOCK h.1.symm
  rw [findFreeBlocks, if_neg hmax.not_gt, hfind]

theorem findFreeBlocks_le {n pos : ℕ} {t : List Char} (h : findFreeBlocks n t = .ok pos) :
    pos ≤ t.length - 1 := by
  rcases Nat.eq_zero_or_pos n with rfl | hn
  · rw [findFreeBlocks_zero] at h
    obtain rfl := Except.ok.inj h
    exact Nat.zero_le _
  · have hin := (findFreeBlocks_ok h).2.1
    omega

theorem findFreeBlocks_badAlloc_iff {n : ℕ} {t : List Char} (hn : n ≤ maxSize) :
    findFreeBlocks n t = .error .badAlloc ↔
      ¬ ∃ pos, ∀ i ∈ (⟨pos, n⟩ : Segment), t[i]? = some FREE_BLOCK := by
  constructor
  · rintro h ⟨pos, hpos⟩
    rw [findFreeBlocks, if_neg hn.not_gt] at h
    cases hf : Search.find (List.replicate n FREE_BLOCK) t with
    | none => exact (Search.find_eq_none_iff _ _).mp hf (replicate_infix_of_window hpos)
    | some k => rw [hf] at h; cases h
  · intro h
    cases hf : findFreeBlocks n t with
    | ok pos => exact absurd ⟨pos, (findFreeBlocks_ok hf).2.2⟩ h
    | error e =>
      cases e with
      | badAlloc => rfl
      | lengthError =>
        rw [findFreeBlocks, if_neg hn.not_gt] at hf
        split at hf <;> cases hf

end

namespace ShMemState

def memset (s : ShMemState) (pos : ℕ) (v : Char) (count : ℕ) : ShMemState :=
  { s with
    usedBlocksTable := Lib.memset s.usedBlocksTable pos v count
    table_length := (length_memset ..).trans s.table_length }

/-- The block count of a request for `n` objects of `size` bytes. -/
def blocksOf [Platform] (s : ShMemState) (size n : ℕ) : ℕ :=
  getSizeInBlocks (size * n % 2 ^ 64) s.blockSize

def address (s : ShMemState) (pos : ℕ) : ℕ := (s.firstBlock + pos * s.blockSize) % 2 ^ 64

/-- The block that a pointer into the pool is the address of. -/
def offset (s : ShMemState) (p : ℕ) : ℕ :=
  (((p : ℤ) - s.firstBlock) % 2 ^ 64).toNat / s.blockSize

def allocate [Platform] (s : ShMemState) (size n : ℕ) : ShMemState × Except AllocError ℕ :=
  if s.blockSize = 0 then (s, .error .badAlloc)
  else
    let blocksNeeded := s.blocksOf size n
    match findFreeBlocks blocksNeeded s.usedBlocksTable with
    | .error e => (s, .error e)
    | .ok blocksPos => (s.memset blocksPos USED_BLOCK blocksNeeded, .ok (s.address blocksPos))

def deallocate [Platform] (s : ShMemState) (p size n : ℕ) : ShMemState :=
  s.memset (s.offset p) FREE_BLOCK (s.blocksOf size n)

/-- The blocks start less than 2⁶⁴ bytes behind the first one. -/
def Spans (s : ShMemState) : Prop := (s.blocksCount - 1) * s.blockSize < 2 ^ 64

instance (s : ShMemState) : Decidable s.Spans := inferInstanceAs (Decidable (_ < _))

/-- There are `n` consecutive free blocks. -/
def HasRun (s : ShMemState) (n : ℕ) : Prop :=
  ∃ pos, ∀ i ∈ (⟨pos, n⟩ : Segment), s.usedBlocksTable[i]? = some FREE_BLOCK

/-- What the division of `deallocate` makes of the address computed by `allocate`. -/
theorem offset_address (s : ShMemState) (pos : ℕ) :
    s.offset (s.address pos) = pos * s.blockSize % 2 ^ 64 / s.blockSize := by
  have hoff : (((s.address pos : ℕ) : ℤ) - s.firstBlock) % 2 ^ 64
      = (pos * s.blockSize % 2 ^ 64 : ℕ) := by
    rw [address]
    omega
  rw [offset, hoff, Int.toNat_natCast]

theorem Spans.lt {s : ShMemState} (h : s.Spans) {pos : ℕ} (hpos : pos ≤ s.blocksCount - 1) :
    pos * s.blockSize < 2 ^ 64 := (Nat.mul_le_mul_right _ hpos).trans_lt h

/-- It inverts it where a block starts. -/
theorem Spans.offset {s : ShMemState} (h : s.Spans) (hs : 0 < s.blockSize) {pos : ℕ}
    (hpos : pos ≤ s.blocksCount - 1) : s.offset (s.address pos) = pos := by
  rw [offset_address, Nat.mod_eq_of_lt (h.lt hpos), Nat.mul_div_cancel _ hs]

end ShMemState
end Sphere.Shmem
