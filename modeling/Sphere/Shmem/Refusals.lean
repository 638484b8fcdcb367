import Sphere.Shmem.Operations
import Sphere.Shmem.UnlockedFree

/-! Why `allocate` throws. Its search reads the table byte by byte while other processes free
blocks; it comes to the end of the table only if there was no run of free blocks when it
began. -/

namespace Sphere.Shmem

open Lib Lib.Transition

variable [Platform]

/-- A request that is refused could not be served from the pool as it was found. -/
def Request.Honest (r : Request) : Prop :=
  match r.answer with
  | .ok _ => True
  | .error .badAlloc => r.pool.blockSize = 0 ∨ ¬ r.pool.HasRun (r.pool.blocksOf r.size r.n)
  | .error .lengthError => Platform.maxSize < r.pool.blocksOf r.size r.n

namespace Shared

/-- The same pool, in which no block that was free is used. -/
structure Freer (mem mem' : ShMemState) : Prop where
  count : mem'.blocksCount = mem.blocksCount
  size : mem'.blockSize = mem.blockSize
  free : ∀ i : ℕ, mem.usedBlocksTable[i]? = some FREE_BLOCK →
    mem'.usedBlocksTable[i]? = some FREE_BLOCK

variable {σ σ' : Shared} {p : ℕ} {pool mem mem' : ShMemState} {size n pos k : ℕ}

omit [Platform] in
theorem Freer.refl (mem : ShMemState) : Freer mem mem := ⟨rfl, rfl, fun _ hi => hi⟩

omit [Platform] in
theorem Freer.trans (h : Freer pool mem) (h' : Freer mem mem') : Freer pool mem' :=
  ⟨h'.count.trans h.count, h'.size.trans h.size, fun i hi => h'.free i (h.free i hi)⟩

theorem Freer.blocksOf (h : Freer pool mem) (size n : ℕ) :
    mem.blocksOf size n = pool.blocksOf size n := by
  rw [ShMemState.blocksOf, h.size, ShMemState.blocksOf]

/-- Only the `memset` of an allocation makes a block used. -/
theorem freer_move {task : Task} {inside : Bool} (hm : Move σ p task inside σ') :
    Freer σ.mem σ'.mem ∨ ∃ size n pos k, task = .mark size n pos k := by
  cases hm with
  | write inside hk => exact .inr ⟨_, _, _, _, rfl⟩
  | finish inside hk => exact .inr ⟨_, _, _, _, rfl⟩
  | clear inside start len =>
    refine .inl ⟨rfl, rfl, fun i hi => ?_⟩
    change (Lib.memset σ.mem.usedBlocksTable start FREE_BLOCK 1)[i]? = some FREE_BLOCK
    rw [getElem?_write, hi, ite_self]
  | _ => exact .inl (.refl _)

/-- What a search that began in `pool` knows: the windows it is past were not free then. -/
def Watches (pool mem : ShMemState) : Task → Prop
  | .scan size n pos _ => Freer pool mem ∧ ∀ j < pos,
      ∃ i ∈ (⟨j, pool.blocksOf size n⟩ : Segment), pool.usedBlocksTable[i]? ≠ some FREE_BLOCK
  | _ => True

theorem Watches.freer {task : Task} (h : Watches pool mem task) (hf : Freer mem mem') :
    Watches pool mem' task := by
  cases task with
  | scan size n pos k => exact ⟨h.1.trans hf, h.2⟩
  | _ => trivial

theorem Watches.enter : Watches σ.mem σ.mem (σ.enter size n) := by
  unfold Shared.enter
  split_ifs
  · trivial
  · exact ⟨.refl _, fun j hj => absurd hj (Nat.not_lt_zero j)⟩

/-- One byte of the search. -/
theorem Watches.look {inside : Bool} (h : Watches pool σ.mem (.scan size n pos k))
    (hfit : Fits σ.mem ⟨.scan size n pos k, inside⟩) :
    Watches pool σ.mem (σ.look size n pos k) := by
  obtain ⟨hf, hpast⟩ := h
  obtain ⟨-, -, -, hle, -⟩ := hfit
  unfold Shared.look
  split_ifs with hend hk hbyte
  · trivial
  · trivial
  · exact ⟨hf, hpast⟩
  · refine ⟨hf, fun j hj => ?_⟩
    obtain hj | rfl : j < pos ∨ j = pos := by omega
    · exact hpast j hj
    · -- a byte that is used now was used at the beginning
      refine ⟨j + k, ?_, fun hfree => hbyte (hf.free _ hfree)⟩
      rw [Segment.mem_iff, ← hf.blocksOf]
      dsimp only
      omega

/-- At the end of the table there is no window left. -/
theorem Watches.not_hasRun {inside : Bool} (h : Watches pool σ.mem (.scan size n pos k))
    (hfit : Fits σ.mem ⟨.scan size n pos k, inside⟩) (hidle : σ.look size n pos k = .idle) :
    ¬ pool.HasRun (pool.blocksOf size n) := by
  obtain ⟨hf, hpast⟩ := h
  obtain ⟨-, -, hpos, -, -⟩ := hfit
  have hend : σ.mem.blocksCount < pos + σ.mem.blocksOf size n := by
    by_contra hend
    unfold Shared.look at hidle
    rw [if_neg hend] at hidle
    split_ifs at hidle
  rw [hf.blocksOf, hf.count] at hend
  rw [hf.blocksOf] at hpos
  rintro ⟨j, hj⟩
  rcases Nat.lt_or_ge j pos with hlt | hge
  · obtain ⟨i, hi, hused⟩ := hpast j hlt
    exact hused (hj i hi)
  · have hlast := hj (j + pool.blocksOf size n - 1) (by rw [Segment.mem_iff]; dsimp only; omega)
    have hin := (List.getElem?_eq_some_iff.mp hlast).1
    rw [pool.table_length] at hin
    omega

end Shared
end Sphere.Shmem
