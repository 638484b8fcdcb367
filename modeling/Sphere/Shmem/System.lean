import Sphere.Shmem.Heap

/-! The processes that share a `SharedMap`. An operation runs between `SemLock`'s wait and
post and allocates and frees by single bytes of the table; a value that `at` returned is
freed by its owner at any time, without the lock. -/

namespace Sphere.Shmem

open Lib Lib.Transition

/-- Where a process is: between calls of the allocator, in the search of `allocate` with
`k` free bytes seen in the window at `pos`, in its `memset` with `k` bytes written, or in the
`memset` of `deallocate` with the segment that is left. -/
inductive Task
  | idle
  | scan (size n pos k : ℕ)
  | mark (size n pos k : ℕ)
  | clear (rest : Segment)
  deriving DecidableEq, Repr

structure Proc where
  task : Task
  /-- it is between `SemLock`'s constructor and destructor -/
  inside : Bool
  deriving DecidableEq, Repr

/-- A live allocation, and the process that was given it as a value (`none`: it is the
map's, or of the operation that runs). -/
structure Value where
  allocation : Allocation
  owner : Option ℕ
  deriving DecidableEq, Repr

structure Shared where
  mem : ShMemState
  sem : ℕ
  procs : List Proc
  live : List Value

inductive Act
  | wait
  | post
  | allocate (size n : ℕ)
  | give (v : Value)
  | free (v : Value)
  | go
  deriving DecidableEq, Repr

namespace Shared

variable [Platform]

def setProc (σ : Shared) (p : ℕ) (q : Proc) : Shared := { σ with procs := σ.procs.set p q }

/-- `allocate` up to the first byte read: the test of the block size and the pattern. -/
def enter (σ : Shared) (size n : ℕ) : Task :=
  if σ.mem.blockSize = 0 ∨ Platform.maxSize < σ.mem.blocksOf size n then .idle
  else .scan size n 0 0

/-- One byte of the search: the next one of the window, or the first of the next window.
Past the last window `allocate` throws. -/
def look (σ : Shared) (size n pos k : ℕ) : Task :=
  if σ.mem.blocksCount < pos + σ.mem.blocksOf size n then .idle
  else if k = σ.mem.blocksOf size n then .mark size n pos 0
  else if σ.mem.usedBlocksTable[pos + k]? = some FREE_BLOCK then .scan size n pos (k + 1)
  else .scan size n (pos + 1) 0

def advance (σ : Shared) (p : ℕ) (inside : Bool) : Task → Option Shared
  | .idle => none
  | .scan size n pos k => some (σ.setProc p ⟨σ.look size n pos k, inside⟩)
  | .mark size n pos k =>
    if k < σ.mem.blocksOf size n then
      some { σ.setProc p ⟨.mark size n pos (k + 1), inside⟩ with
        mem := σ.mem.memset (pos + k) USED_BLOCK 1 }
    else
      some { σ.setProc p ⟨.idle, inside⟩ with
        live := ⟨⟨σ.mem.address pos, size, n⟩, none⟩ :: σ.live }
  | .clear ⟨start, len + 1⟩ =>
    some { σ.setProc p ⟨.clear ⟨start + 1, len⟩, inside⟩ with
      mem := σ.mem.memset start FREE_BLOCK 1 }
  | .clear ⟨_, 0⟩ => some (σ.setProc p ⟨.idle, inside⟩)

/-- The holder of the semaphore allocates, frees what is the map's or its own, and hands
values out; any process frees a value of its own. -/
def step (σ : Shared) (a : ℕ × Act) : Option Shared :=
  match σ.procs[a.1]? with
  | none => none
  | some ⟨task, inside⟩ =>
    match a.2, task with
    | .wait, .idle =>
      if inside = false ∧ 0 < σ.sem then
        some { σ.setProc a.1 ⟨.idle, true⟩ with sem := σ.sem - 1 }
      else none
    | .post, .idle =>
      if inside then some { σ.setProc a.1 ⟨.idle, false⟩ with sem := σ.sem + 1 } else none
    | .allocate size n, .idle =>
      if inside then some (σ.setProc a.1 ⟨σ.enter size n, inside⟩) else none
    | .give v, .idle =>
      if inside ∧ v ∈ σ.live ∧ v.owner = none then
        some { σ with live := ⟨v.allocation, some a.1⟩ :: σ.live.erase v }
      else none
    | .free v, .idle =>
      if v ∈ σ.live ∧ (v.owner = some a.1 ∨ inside ∧ v.owner = none) then
        some { σ.setProc a.1 ⟨.clear (σ.mem.blocks v.allocation), inside⟩ with
          live := σ.live.erase v }
      else none
    | .go, task => σ.advance a.1 inside task
    | _, _ => none

/-- The map has just been constructed, and `count` processes share it. -/
def start (mem : ShMemState) (count : ℕ) : Shared :=
  ⟨mem, 1, List.replicate count ⟨.idle, false⟩, []⟩

end Shared
end Sphere.Shmem
