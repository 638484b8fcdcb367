import Sphere.Shmem.SharedMap
import Sphere.Shmem.System

/-! Frees that are not serialised with the search of the allocator do no harm: a byte that
is seen free stays free until the holder of the semaphore marks it. -/

namespace Sphere.Shmem

open Lib Lib.Transition

/-- The blocks a process in a `memset` has marked, or has still to clear. -/
def Task.claim : Task → Segment
  | .mark _ _ pos k => ⟨pos, k⟩
  | .clear rest => rest
  | _ => ⟨0, 0⟩

namespace Shared

/-- The blocks of the live allocations and those of the processes in a `memset`. -/
def claims [Platform] (mem : ShMemState) (live : List Value) (procs : List Proc) : List Segment :=
  live.map (fun v => mem.blocks v.allocation) ++ procs.map (·.task.claim)

/-- What a change of one process does to the task, the lock, the table and the values. -/
inductive Move [Platform] (σ : Shared) (p : ℕ) : Task → Bool → Shared → Prop
  | wait (hsem : 0 < σ.sem) :
      Move σ p .idle false { σ.setProc p ⟨.idle, true⟩ with sem := σ.sem - 1 }
  | post : Move σ p .idle true { σ.setProc p ⟨.idle, false⟩ with sem := σ.sem + 1 }
  | enter (size n : ℕ) : Move σ p .idle true (σ.setProc p ⟨σ.enter size n, true⟩)
  | give (inside : Bool) (v : Value) (hv : v ∈ σ.live) :
      Move σ p .idle inside { σ with live := ⟨v.allocation, some p⟩ :: σ.live.erase v }
  | free (inside : Bool) (v : Value) (hv : v ∈ σ.live) :
      Move σ p .idle inside
        { σ.setProc p ⟨.clear (σ.mem.blocks v.allocation), inside⟩ with
          live := σ.live.erase v }
  | look (inside : Bool) (size n pos k : ℕ) :
      Move σ p (.scan size n pos k) inside (σ.setProc p ⟨σ.look size n pos k, inside⟩)
  | write (inside : Bool) {size n pos k : ℕ} (hk : k < σ.mem.blocksOf size n) :
      Move σ p (.mark size n pos k) inside
        { σ.setProc p ⟨.mark size n pos (k + 1), inside⟩ with
          mem := σ.mem.memset (pos + k) USED_BLOCK 1 }
  | finish (inside : Bool) {size n pos k : ℕ} (hk : ¬ k < σ.mem.blocksOf size n) :
      Move σ p (.mark size n pos k) inside
        { σ.setProc p ⟨.idle, inside⟩ with
          live := ⟨⟨σ.mem.address pos, size, n⟩, none⟩ :: σ.live }
  | clear (inside : Bool) (start len : ℕ) :
      Move σ p (.clear ⟨start, len + 1⟩) inside
        { σ.setProc p ⟨.clear ⟨start + 1, len⟩, inside⟩ with
          mem := σ.mem.memset start FREE_BLOCK 1 }
  | cleared (inside : Bool) (start : ℕ) :
      Move σ p (.clear ⟨start, 0⟩) inside (σ.setProc p ⟨.idle, inside⟩)

theorem step_move [Platform] {σ σ' : Shared} {p : ℕ} {act : Act} (h : σ.step (p, act) = some σ') :
    ∃ task inside, σ.procs[p]? = some ⟨task, inside⟩ ∧ Move σ p task inside σ' := by
  unfold step at h
  dsimp only at h
  split at h
  · cases h
  · next task inside hq =>
    refine ⟨task, inside, hq, ?_⟩
    split at h
    · split_ifs at h with hc
      obtain ⟨rfl, hsem⟩ := hc
      obtain rfl := Option.some.inj h
      exact .wait hsem
    · split_ifs at h with hc
      obtain rfl := Option.some.inj h
      rw [hc]
      exact .post
    · split_ifs at h with hc
      obtain rfl := Option.some.inj h
      rw [hc]
      exact .enter _ _
    · split_ifs at h with hc
      obtain rfl := Option.some.inj h
      exact .give _ _ hc.2.1
    · split_ifs at h with hc
      obtain rfl := Option.some.inj h
      exact .free _ _ hc.1
    · unfold advance at h
      split at h
      · cases h
      · obtain rfl := Option.some.inj h
        exact .look _ _ _ _ _
      · split_ifs at h with hk
        · obtain rfl := Option.some.inj h
          exact .write _ hk
        · obtain rfl := Option.some.inj h
          exact .finish _ hk
      · obtain rfl := Option.some.inj h
        exact .clear _ _ _
      · obtain rfl := Option.some.inj h
        exact .cleared _ _
    · cases h

/-! One process at a time is inside. -/

structure Locked (sem : ℕ) (procs : List Proc) : Prop where
  sem_le : sem ≤ 1
  closed : ∀ (p : ℕ) (q : Proc), procs[p]? = some q → q.inside = true → sem = 0
  single : ∀ (p p' : ℕ) (q q' : Proc), procs[p]? = some q → procs[p']? = some q' →
    q.inside = true → q'.inside = true → p = p'

/-- Nobody is inside. -/
theorem Locked.open {sem : ℕ} {procs : List Proc} (hsem : sem ≤ 1)
    (hout : ∀ (p : ℕ) (q : Proc), procs[p]? = some q → ¬ q.inside = true) :
    Locked sem procs :=
  ⟨hsem, fun p q hq hin => absurd hin (hout p q hq),
    fun p _ q _ hq _ hin _ => absurd hin (hout p q hq)⟩

/-- A change of one process that keeps it inside, or outside. -/
theorem Locked.set {sem : ℕ} {procs : List Proc} {p : ℕ} {q q' : Proc} (h : Locked sem procs)
    (hq : procs[p]? = some q) (hin : q'.inside = q.inside) : Locked sem (procs.set p q') := by
  have hback : ∀ (r : ℕ) (x : Proc), (procs.set p q')[r]? = some x →
      ∃ x₀, procs[r]? = some x₀ ∧ x₀.inside = x.inside := by
    intro r x hx
    by_cases hr : p = r
    · subst hr
      rw [List.getElem?_set_self (List.getElem?_eq_some_iff.mp hq).1, Option.some.injEq] at hx
      subst hx
      exact ⟨q, hq, hin.symm⟩
    · rw [List.getElem?_set_ne hr] at hx
      exact ⟨x, hx, rfl⟩
  refine ⟨h.sem_le, fun r x hx hi => ?_, fun r r' x x' hx hx' hi hi' => ?_⟩
  · obtain ⟨x₀, hx₀, he⟩ := hback r x hx
    exact h.closed r x₀ hx₀ (he.trans hi)
  · obtain ⟨x₀, hx₀, he⟩ := hback r x hx
    obtain ⟨x₁, hx₁, he'⟩ := hback r' x' hx'
    exact h.single r r' x₀ x₁ hx₀ hx₁ (he.trans hi) (he'.trans hi')

theorem Locked.move [Platform] {σ σ' : Shared} {p : ℕ} {task : Task} {inside : Bool}
    (h : Locked σ.sem σ.procs) (hq : σ.procs[p]? = some ⟨task, inside⟩)
    (hm : Move σ p task inside σ') : Locked σ'.sem σ'.procs := by
  cases hm with
  | wait hsem =>
    have hle := h.sem_le
    have honly : ∀ (r : ℕ) (x : Proc), (σ.procs.set p ⟨.idle, true⟩)[r]? = some x →
        x.inside = true → r = p := by
      intro r x hx hi
      by_contra hr
      rw [List.getElem?_set_ne (Ne.symm hr)] at hx
      have := h.closed r x hx hi
      omega
    refine ⟨?_, fun r x _ _ => ?_, fun r r' x x' hx hx' hi hi' => ?_⟩
    · change σ.sem - 1 ≤ 1
      omega
    · change σ.sem - 1 = 0
      omega
    · rw [honly r x hx hi, honly r' x' hx' hi']
  | post =>
    have hzero := h.closed p _ hq rfl
    refine Locked.open ?_ fun r x hx hi => ?_
    · change σ.sem + 1 ≤ 1
      omega
    · change (σ.procs.set p ⟨.idle, false⟩)[r]? = some x at hx
      by_cases hr : p = r
      · subst hr
        rw [List.getElem?_set_self (List.getElem?_eq_some_iff.mp hq).1,
          Option.some.injEq] at hx
        subst hx
        simp at hi
      · rw [List.getElem?_set_ne hr] at hx
        exact hr (h.single p r _ x hq hx rfl hi)
  | give => exact h
  | _ => exact h.set hq rfl

/-! The table. -/

theorem getElem?_write {t : List Char} {k i : ℕ} {v : Char} :
    (Lib.memset t k v 1)[i]? = if i = k ∧ k < t.length then some v else t[i]? := by
  rw [Lib.memset, Lib.memset, Nat.add_zero, List.getElem?_set]
  split_ifs <;> simp_all

/-- How the claims change with one process. -/
theorem cover_procs_set {procs : List Proc} {p : ℕ} {q : Proc} (hq : procs[p]? = some q)
    (q' : Proc) (s s' : Segment) (hs : q.task.claim = s) (hs' : q'.task.claim = s') (i : ℕ) :
    Segment.cover ((procs.set p q').map (·.task.claim)) i + (if i ∈ s then 1 else 0)
      = Segment.cover (procs.map (·.task.claim)) i + if i ∈ s' then 1 else 0 := by
  subst hs hs'
  rw [List.map_set]
  exact Segment.cover_set (by rw [List.getElem?_map, hq]; rfl) _ i

section

variable [Platform]

/-- What the bytes seen by a search, or found by it and not yet marked, are like. Only the
holder of the semaphore is in `allocate`. -/
def Fits (mem : ShMemState) (q : Proc) : Prop :=
  match q.task with
  | .scan size n pos k => q.inside = true ∧ 0 < mem.blockSize ∧
      (pos = 0 ∨ 0 < mem.blocksOf size n) ∧ k ≤ mem.blocksOf size n ∧
      ∀ i ∈ (⟨pos, k⟩ : Segment), mem.usedBlocksTable[i]? = some FREE_BLOCK
  | .mark size n pos k => q.inside = true ∧ 0 < mem.blockSize ∧
      pos + mem.blocksOf size n ≤ mem.blocksCount ∧ pos ≤ mem.blocksCount - 1 ∧
      k ≤ mem.blocksOf size n ∧
      ∀ i ∈ (⟨pos + k, mem.blocksOf size n - k⟩ : Segment),
        mem.usedBlocksTable[i]? = some FREE_BLOCK
  | _ => True

structure Sound (σ : Shared) : Prop where
  spans : σ.mem.Spans
  locked : Locked σ.sem σ.procs
  marks : Marks USED_BLOCK FREE_BLOCK σ.mem.usedBlocksTable (claims σ.mem σ.live σ.procs)
  fits : ∀ (p : ℕ) (q : Proc), σ.procs[p]? = some q → Fits σ.mem q

/-- A byte that is cleared does not disturb a search. -/
theorem Fits.clear {mem : ShMemState} {q : Proc} (h : Fits mem q) (k : ℕ) :
    Fits (mem.memset k FREE_BLOCK 1) q := by
  have hfree : ∀ i : ℕ, mem.usedBlocksTable[i]? = some FREE_BLOCK →
      (mem.memset k FREE_BLOCK 1).usedBlocksTable[i]? = some FREE_BLOCK := by
    intro i hi
    change (Lib.memset mem.usedBlocksTable k FREE_BLOCK 1)[i]? = some FREE_BLOCK
    rw [getElem?_write, hi, ite_self]
  unfold Fits at h ⊢
  split at h
  · obtain ⟨hin, hs, hpos, hk, hseen⟩ := h
    exact ⟨hin, hs, hpos, hk, fun i hi => hfree i (hseen i hi)⟩
  · obtain ⟨hin, hs, hend, hpos, hk, hrest⟩ := h
    exact ⟨hin, hs, hend, hpos, hk, fun i hi => hfree i (hrest i hi)⟩
  · trivial

/-- Outside the semaphore there is no search to disturb. -/
theorem Fits.outside {mem mem' : ShMemState} {q : Proc} (h : Fits mem q)
    (hin : ¬ q.inside = true) : Fits mem' q := by
  unfold Fits at h ⊢
  split at h
  · exact absurd h.1 hin
  · exact absurd h.1 hin
  · trivial

theorem cover_live_erase {mem : ShMemState} {live : List Value} {v : Value} (hv : v ∈ live)
    (i : ℕ) :
    Segment.cover (live.map fun v => mem.blocks v.allocation) i
      = Segment.cover ((live.erase v).map fun v => mem.blocks v.allocation) i
        + if i ∈ mem.blocks v.allocation then 1 else 0 := by
  have hperm := (List.perm_cons_erase hv).map fun v => mem.blocks v.allocation
  rw [Segment.cover_perm hperm i, List.map_cons, Segment.cover_cons]

theorem Fits.enter {σ : Shared} (size n : ℕ) : Fits σ.mem ⟨σ.enter size n, true⟩ := by
  unfold Shared.enter
  split_ifs with h
  · trivial
  · push Not at h
    exact ⟨rfl, by omega, .inl rfl, Nat.zero_le _, fun i hi => absurd hi Segment.notMem_empty⟩

theorem Fits.look {σ : Shared} {size n pos k : ℕ} {inside : Bool}
    (h : Fits σ.mem ⟨.scan size n pos k, inside⟩) :
    Fits σ.mem ⟨σ.look size n pos k, inside⟩ := by
  obtain ⟨hin, hs, hpos, hle, hseen⟩ := h
  unfold Shared.look
  split_ifs with hend hk hbyte
  · trivial
  · refine ⟨hin, hs, not_lt.mp hend, by omega, Nat.zero_le _, ?_⟩
    rw [Nat.add_zero, Nat.sub_zero, ← hk]
    exact hseen
  · refine ⟨hin, hs, hpos, by omega, fun i hi => ?_⟩
    rw [Segment.mem_iff] at hi
    dsimp only at hi
    by_cases hik : i = pos + k
    · rw [hik]
      exact hbyte
    · exact hseen i (by rw [Segment.mem_iff]; dsimp only; omega)
  · -- a window of no bytes has none that is used
    have hblocks : 0 < σ.mem.blocksOf size n := by omega
    exact ⟨hin, hs, .inr hblocks, Nat.zero_le _, fun i hi => absurd hi Segment.notMem_empty⟩

/-- The bytes found for a window are taken one by one from its front. -/
theorem Fits.write {mem : ShMemState} {size n pos k : ℕ} {inside : Bool}
    (h : Fits mem ⟨.mark size n pos k, inside⟩) (hk : k < mem.blocksOf size n) :
    Fits (mem.memset (pos + k) USED_BLOCK 1) ⟨.mark size n pos (k + 1), inside⟩ := by
  obtain ⟨hin, hs, hend, hpos, -, hfree⟩ := h
  refine ⟨hin, hs, hend, hpos, hk, fun i hi => ?_⟩
  change i ∈ (⟨pos + (k + 1), mem.blocksOf size n - (k + 1)⟩ : Segment) at hi
  rw [Segment.mem_iff] at hi
  dsimp only at hi
  change (Lib.memset mem.usedBlocksTable (pos + k) USED_BLOCK 1)[i]? = some FREE_BLOCK
  rw [getElem?_write, if_neg (by omega)]
  exact hfree i (by rw [Segment.mem_iff]; dsimp only; omega)

/-- The process that takes a step, and the others as they were. -/
theorem fits_set (mem' : ShMemState) {procs : List Proc} {p : ℕ} {q' : Proc}
    (hnew : Fits mem' q')
    (hold : ∀ (r : ℕ) (q : Proc), r ≠ p → procs[r]? = some q → Fits mem' q) :
    ∀ (r : ℕ) (q : Proc), (procs.set p q')[r]? = some q → Fits mem' q := by
  intro r q hq
  by_cases hr : p = r
  · subst hr
    rw [List.getElem?_set_self'] at hq
    obtain ⟨_, -, rfl⟩ := Option.map_eq_some_iff.mp hq
    exact hnew
  · rw [List.getElem?_set_ne hr] at hq
    exact hold r q (Ne.symm hr) hq

theorem Sound.fits_move {σ σ' : Shared} {p : ℕ} {task : Task} {inside : Bool} (h : σ.Sound)
    (hq : σ.procs[p]? = some ⟨task, inside⟩) (hm : Move σ p task inside σ') :
    ∀ (r : ℕ) (q : Proc), σ'.procs[r]? = some q → Fits σ'.mem q := by
  have hfit := h.fits p _ hq
  have hold : ∀ (r : ℕ) (q : Proc), r ≠ p → σ.procs[r]? = some q → Fits σ.mem q :=
    fun r q _ hr => h.fits r q hr
  cases hm with
  | wait hsem => exact fits_set σ.mem trivial hold
  | post => exact fits_set σ.mem trivial hold
  | enter size n => exact fits_set _ (Fits.enter size n) hold
  | give inside v hv => exact h.fits
  | free inside v hv => exact fits_set σ.mem trivial hold
  | look inside size n pos k => exact fits_set _ hfit.look hold
  | finish inside hk => exact fits_set σ.mem trivial hold
  | cleared inside start => exact fits_set _ trivial hold
  | clear inside start len =>
    exact fits_set _ trivial fun r q _ hr => (h.fits r q hr).clear start
  | write inside hk =>
    -- the process that marks is inside, so the others are not
    refine fits_set _ (hfit.write hk) fun r q hne hr => ?_
    exact (h.fits r q hr).outside fun hin => hne (h.locked.single r p q _ hr hq hin hfit.1)

theorem cover_claims (mem : ShMemState) (live : List Value) (procs : List Proc) (i : ℕ) :
    Segment.cover (claims mem live procs) i
      = Segment.cover (live.map fun v => mem.blocks v.allocation) i
        + Segment.cover (procs.map (·.task.claim)) i :=
  Segment.cover_append _ _ _

theorem Sound.marks_move {σ σ' : Shared} {p : ℕ} {task : Task} {inside : Bool} (h : σ.Sound)
    (hq : σ.procs[p]? = some ⟨task, inside⟩) (hm : Move σ p task inside σ') :
    Marks USED_BLOCK FREE_BLOCK σ'.mem.usedBlocksTable (claims σ'.mem σ'.live σ'.procs) := by
  have hfit := h.fits p _ hq
  -- a process whose claim is empty before and after the step
  have hturn : ∀ q' : Proc, (∀ i, i ∉ task.claim) → (∀ i, i ∉ q'.task.claim) →
      Marks USED_BLOCK FREE_BLOCK σ.mem.usedBlocksTable
        (claims σ.mem σ.live (σ.procs.set p q')) := by
    intro q' hold hnew
    refine h.marks.congr fun i => ?_
    have hi := cover_procs_set hq q' task.claim q'.task.claim rfl rfl i
    rw [if_neg (hold i), if_neg (hnew i)] at hi
    rw [cover_claims, cover_claims]
    omega
  cases hm with
  | wait hsem => exact hturn _ (fun i => Segment.notMem_empty) fun i => Segment.notMem_empty
  | post => exact hturn _ (fun i => Segment.notMem_empty) fun i => Segment.notMem_empty
  | cleared inside start =>
    exact hturn _ (fun i => Segment.notMem_empty) fun i => Segment.notMem_empty
  | enter size n =>
    refine hturn _ (fun i => Segment.notMem_empty) fun i => ?_
    unfold Shared.enter
    split_ifs <;> exact Segment.notMem_empty
  | look inside size n pos k =>
    refine hturn _ (fun i => Segment.notMem_empty) fun i => ?_
    unfold Shared.look
    split_ifs <;> exact Segment.notMem_empty
  | give inside v hv =>
    change Marks _ _ σ.mem.usedBlocksTable
      (claims σ.mem (⟨v.allocation, some p⟩ :: σ.live.erase v) σ.procs)
    refine h.marks.congr fun i => ?_
    rw [cover_claims, cover_claims, List.map_cons, Segment.cover_cons, cover_live_erase hv i]
  | free inside v hv =>
    change Marks _ _ σ.mem.usedBlocksTable (claims σ.mem (σ.live.erase v) (σ.procs.set p _))
    refine h.marks.congr fun i => ?_
    have hi := cover_procs_set hq ⟨.clear (σ.mem.blocks v.allocation), inside⟩
      ⟨0, 0⟩ (σ.mem.blocks v.allocation) rfl rfl i
    rw [Segment.ite_mem_empty] at hi
    rw [cover_claims, cover_claims, cover_live_erase hv i]
    omega
  | finish inside hk =>
    rename_i size n pos k
    obtain ⟨-, hs, hend, hpos, hle, -⟩ := hfit
    obtain rfl : k = σ.mem.blocksOf size n := by omega
    change Marks _ _ σ.mem.usedBlocksTable
      (claims σ.mem (⟨⟨σ.mem.address pos, size, n⟩, none⟩ :: σ.live) (σ.procs.set p _))
    refine h.marks.congr fun i => ?_
    have hi := cover_procs_set hq ⟨.idle, inside⟩
      ⟨pos, σ.mem.blocksOf size n⟩ ⟨0, 0⟩ rfl rfl i
    rw [Segment.ite_mem_empty] at hi
    have hblocks : σ.mem.blocks ⟨σ.mem.address pos, size, n⟩ = ⟨pos, σ.mem.blocksOf size n⟩ :=
      congrArg (Segment.mk · _) (h.spans.offset hs hpos)
    rw [cover_claims, cover_claims, List.map_cons, Segment.cover_cons, hblocks]
    omega
  | write inside hk =>
    rename_i size n pos k
    obtain ⟨-, -, -, -, -, hfree⟩ := hfit
    have hbyte := hfree (pos + k) (by rw [Segment.mem_iff]; dsimp only; omega)
    change Marks _ _ (σ.mem.usedBlocksTable.set (pos + k) USED_BLOCK)
      (claims σ.mem σ.live (σ.procs.set p _))
    refine h.marks.set_used (List.getElem?_eq_some_iff.mp hbyte).1 fun i => ?_
    have hi := cover_procs_set hq ⟨.mark size n pos (k + 1), inside⟩
      ⟨pos, k⟩ ⟨pos, k + 1⟩ rfl rfl i
    rw [Segment.ite_mem_grow] at hi
    have hcov := h.marks.counts (pos + k)
    rw [hbyte, if_neg (by decide), cover_claims] at hcov
    rw [cover_claims, cover_claims]
    by_cases hik : i = pos + k
    · rw [if_pos hik, hik] at hi
      rw [if_pos hik, hik]
      split_ifs at hi <;> omega
    · rw [if_neg hik] at hi ⊢
      omega
  | clear inside start len =>
    change Marks _ _ (σ.mem.usedBlocksTable.set start FREE_BLOCK)
      (claims σ.mem σ.live (σ.procs.set p _))
    refine h.marks.set_free USED_BLOCK_ne_FREE_BLOCK fun i => ?_
    have hi := cover_procs_set hq ⟨.clear ⟨start + 1, len⟩, inside⟩
      ⟨start, len + 1⟩ ⟨start + 1, len⟩ rfl rfl i
    rw [Segment.ite_mem_shrink] at hi
    have hcov := h.marks.counts i
    rw [cover_claims] at hcov ⊢
    rw [cover_claims]
    split_ifs at hi hcov ⊢ <;> omega

theorem Sound.step {σ σ' : Shared} {a : ℕ × Act} (h : σ.Sound) (hstep : σ.step a = some σ') :
    σ'.Sound := by
  obtain ⟨task, inside, hq, hm⟩ := step_move hstep
  have hspans : σ'.mem.Spans := by
    cases hm <;> exact h.spans
  exact ⟨hspans, h.locked.move hq hm, h.marks_move hq hm, h.fits_move hq hm⟩

theorem sound_start {mem : ShMemState} (count : ℕ) (hspans : mem.Spans)
    (hfree : mem.usedBlocksTable = List.replicate mem.blocksCount FREE_BLOCK) :
    (start mem count).Sound := by
  have hidle : ∀ (p : ℕ) (q : Proc), (start mem count).procs[p]? = some q →
      q = ⟨.idle, false⟩ :=
    fun p q hq => List.eq_of_mem_replicate (List.mem_of_getElem? hq)
  refine ⟨hspans, Locked.open le_rfl fun p q hq => ?_, ?_, fun p q hq => ?_⟩
  · rw [hidle p q hq]
    simp
  · have hfresh : Marks USED_BLOCK FREE_BLOCK mem.usedBlocksTable [] := by
      rw [hfree]
      exact Marks.fresh USED_BLOCK_ne_FREE_BLOCK _
    refine hfresh.congr fun i => Segment.cover_eq_zero_iff.mpr fun s hs => ?_
    change s ∈ [] ++ (List.replicate count (⟨.idle, false⟩ : Proc)).map (·.task.claim) at hs
    rw [List.nil_append, List.map_replicate] at hs
    rw [List.eq_of_mem_replicate hs]
    exact Segment.notMem_empty
  · rw [hidle p q hq]
    trivial

theorem Sound.reached {mem : ShMemState} {count : ℕ} {acts : List (ℕ × Act)} {σ : Shared}
    (hspans : mem.Spans)
    (hfree : mem.usedBlocksTable = List.replicate mem.blocksCount FREE_BLOCK)
    (hrun : run Shared.step (start mem count) acts = some σ) : σ.Sound :=
  run_preserves (fun _ _ _ h hstep => h.step hstep) (sound_start count hspans hfree) hrun

/-- The block that the next step of an allocation marks. -/
def target (mem : ShMemState) : Task → Option ℕ
  | .mark size n pos k => if k < mem.blocksOf size n then some (pos + k) else none
  | _ => none

/-- The block is free, so nobody claims it. -/
theorem Sound.target_free {σ : Shared} (h : σ.Sound) {p b : ℕ} {q : Proc}
    (hq : σ.procs[p]? = some q) (hb : target σ.mem q.task = some b) :
    Segment.cover (claims σ.mem σ.live σ.procs) b = 0 := by
  obtain ⟨task, inside⟩ := q
  have hfit := h.fits p _ hq
  cases task with
  | mark size n pos k =>
    obtain ⟨-, -, -, -, -, hfree⟩ := hfit
    simp only [target] at hb
    split_ifs at hb with hk
    obtain rfl := Option.some.inj hb
    rw [h.marks.counts, hfree _ (by rw [Segment.mem_iff]; dsimp only; omega),
      if_neg (by decide)]
  | _ => cases hb

/-- A block that an allocation is about to mark belongs to no live allocation, and to none that
another process has still to clear or has marked; the live allocations are apart; and when no
`memset` and no search is under way the table is used exactly on their blocks. -/
structure Kept (σ : Shared) : Prop where
  free : ∀ (p b : ℕ) (q : Proc), σ.procs[p]? = some q → target σ.mem q.task = some b →
    (∀ v ∈ σ.live, b ∉ σ.mem.blocks v.allocation) ∧ ∀ r ∈ σ.procs, b ∉ r.task.claim
  apart : (σ.live.map fun v => σ.mem.blocks v.allocation).Pairwise Segment.Disjoint
  table : (∀ q ∈ σ.procs, q.task = .idle) → ∀ i < σ.mem.blocksCount,
    σ.mem.usedBlocksTable[i]? =
      some (if ∃ v ∈ σ.live, i ∈ σ.mem.blocks v.allocation then USED_BLOCK else FREE_BLOCK)

/-- While no process is in the allocator the table is that of the live allocations. -/
theorem Sound.marks_live {σ : Shared} (h : σ.Sound) (hidle : ∀ q ∈ σ.procs, q.task = .idle) :
    Marks USED_BLOCK FREE_BLOCK σ.mem.usedBlocksTable
      (σ.live.map fun v => σ.mem.blocks v.allocation) := by
  refine h.marks.congr fun i => ?_
  have hnone : Segment.cover (σ.procs.map (·.task.claim)) i = 0 := by
    refine Segment.cover_eq_zero_iff.mpr fun seg hseg => ?_
    obtain ⟨q, hq, rfl⟩ := List.mem_map.mp hseg
    rw [hidle q hq]
    exact Segment.notMem_empty
  rw [cover_claims, hnone, Nat.add_zero]

theorem Sound.kept {σ : Shared} (h : σ.Sound) : σ.Kept := by
  refine ⟨fun p b q hq hb => ?_, (List.pairwise_append.mp h.marks.pairwise).1,
    fun hidle i hi => ?_⟩
  · have hzero := h.target_free hq hb
    rw [cover_claims] at hzero
    refine ⟨fun v hv => ?_, fun r hr => ?_⟩
    · exact Segment.cover_eq_zero_iff.mp (Nat.eq_zero_of_add_eq_zero_right hzero) _
        (List.mem_map_of_mem hv)
    · exact Segment.cover_eq_zero_iff.mp (Nat.eq_zero_of_add_eq_zero_left hzero) _
        (List.mem_map_of_mem hr)
  · rw [← σ.mem.table_length] at hi
    rw [(h.marks_live hidle).getElem? hi]
    simp only [List.mem_map, exists_exists_and_eq_and]

end

end Shared

/-- So it is in every segment that holds what it has to. -/
theorem SharedMap.Made.kept [Platform] {sizes : Sizes} {blockSize blockCount addr : ℕ}
    {map : SharedMap} (h : Made sizes blockSize blockCount addr map)
    (htotal : total sizes blockSize blockCount < 2 ^ 64) {count : ℕ} {acts : List (ℕ × Act)}
    {σ : Shared} (hrun : run Shared.step (Shared.start map.state count) acts = some σ) : σ.Kept :=
  (Shared.Sound.reached (h.spans htotal) rfl hrun).kept

open scoped Gnu

end Sphere.Shmem
