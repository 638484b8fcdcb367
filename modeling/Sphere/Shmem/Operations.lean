import Sphere.Lib.Program
import Sphere.Shmem.Heap

/-! The operations of `SharedMap` on its `std::map`, call by call of the allocator: the
converted arguments, the nodes, and what is returned to the pool on every way out. -/

namespace Sphere.Shmem

open Lib

/-- A value of a `CondString` type. A string that does not fit into itself has its
characters in the pool. -/
structure Object (U : Type) where
  value : U
  buffer : Option Allocation
  deriving DecidableEq, Repr

/-- The node of the tree, with the pair in it. -/
structure Node (K V : Type) where
  key : Object K
  mapped : Object V
  place : Allocation
  deriving DecidableEq, Repr

/-- How many characters a newly constructed value takes from the pool. -/
def Chars (U : Type) : Type := U → Option ℕ

/-- The instance of the template, with `sizeof` of a node. -/
structure Shape (K V : Type) where
  node : ℕ
  key : Chars K
  mapped : Chars V

/-- What an operation does to the shared memory. -/
inductive Cmd (K V : Type)
  | allocate (size n : ℕ)
  | deallocate (a : Allocation)
  | nodes
  | setNodes (ns : List (Node K V))

def Cmd.Answer {K V : Type} : Cmd K V → Type
  | .allocate _ _ => Except AllocError Allocation
  | .deallocate _ => Unit
  | .nodes => List (Node K V)
  | .setNodes _ => Unit

abbrev Body (K V : Type) := Program (Cmd K V) Cmd.Answer

inductive Op (K V : Type)
  | count (k : K)
  | update (key : K) (val : V)
  | insert (key : K) (val : V)
  | at (k : K)
  | erase (k : K)
  | size
  deriving DecidableEq, Repr

/-- What a call asked of the allocator: the pool as `allocate` found it, and the answer. -/
structure Request where
  pool : ShMemState
  size : ℕ
  n : ℕ
  answer : Except AllocError Allocation

/-- What a call returns or throws. -/
inductive Outcome (V : Type)
  | count (n : ℕ)
  | updated
  | inserted (b : Bool)
  | value (o : Object V)
  | erased (n : ℕ)
  | size (n : ℕ)
  | outOfRange
  | alloc (e : AllocError)
  | semaphoreError
  deriving DecidableEq, Repr

/-- A call that is over, with the requests it made. -/
structure Done (K V : Type) where
  process : ℕ
  op : Op K V
  outcome : Outcome V
  requests : List Request

/-- The errors that requests were answered with. -/
def refusals (requests : List Request) : List AllocError :=
  requests.filterMap fun r =>
    match r.answer with
    | .error e => some e
    | .ok _ => none

theorem refusals_ok (requests : List Request) (pool : ShMemState) (size n : ℕ) (a : Allocation) :
    refusals (requests ++ [⟨pool, size, n, .ok a⟩]) = refusals requests :=
  List.filterMap_append.trans (List.append_nil _)

theorem refusals_error (requests : List Request) (pool : ShMemState) (size n : ℕ)
    (e : AllocError) :
    refusals (requests ++ [⟨pool, size, n, .error e⟩]) = refusals requests ++ [e] :=
  List.filterMap_append

section Operations

variable {K V U : Type}

def allocate (size n : ℕ) : Body K V (Except AllocError Allocation) :=
  Program.perform (Cmd.allocate size n)

def deallocate (a : Allocation) : Body K V Unit := Program.perform (Cmd.deallocate a)

def nodes : Body K V (List (Node K V)) := Program.perform Cmd.nodes

def setNodes (ns : List (Node K V)) : Body K V Unit := Program.perform (Cmd.setNodes ns)

/-- `convert`, and the copy constructor. -/
def construct (chars : Chars U) (u : U) : Body K V (Except AllocError (Object U)) :=
  match chars u with
  | none => pure (.ok ⟨u, none⟩)
  | some n => do
    match ← allocate 1 n with
    | .error e => pure (.error e)
    | .ok a => pure (.ok ⟨u, some a⟩)

def destruct (o : Object U) : Body K V Unit :=
  match o.buffer with
  | none => pure ()
  | some a => deallocate a

/-- The assignment of a temporary: its buffer is taken over, and without one the characters
are copied into what is there. -/
def moveAssign (o val : Object U) : Body K V (Object U) :=
  match val.buffer with
  | none => pure ⟨val.value, o.buffer⟩
  | some a => do
    destruct o
    pure ⟨val.value, some a⟩

variable [LinearOrder K]

def find (ns : List (Node K V)) (k : K) : Option (Node K V) := ns.find? fun n => n.key.value = k

/-- The tree in order, with one node more. -/
def link (n : Node K V) (ns : List (Node K V)) : List (Node K V) :=
  ns.orderedInsert (fun a b => a.key.value < b.key.value) n

def unlink (k : K) (ns : List (Node K V)) : List (Node K V) := ns.filter fun n => n.key.value ≠ k

def assign (k : K) (mapped : Object V) (ns : List (Node K V)) : List (Node K V) :=
  ns.map fun n => if n.key.value = k then { n with mapped } else n

variable (shape : Shape K V)

def count (k : K) : Body K V (Outcome V) := do
  match ← construct shape.key k with
  | .error e => pure (.alloc e)
  | .ok tmp => do
    let ns ← nodes
    destruct tmp
    pure (.count (if (find ns k).isSome then 1 else 0))

/-- The right operand of the assignment is converted first. -/
def update (key : K) (val : V) : Body K V (Outcome V) := do
  match ← construct shape.mapped val with
  | .error e => pure (.alloc e)
  | .ok val => do
    match ← construct shape.key key with
    | .error e => do
      destruct val
      pure (.alloc e)
    | .ok tmp => do
      let ns ← nodes
      match find ns key with
      | none => do
        destruct tmp
        destruct val
        pure .outOfRange
      | some n => do
        let mapped ← moveAssign n.mapped val
        setNodes (assign key mapped ns)
        destruct tmp
        pure .updated

/-- The pair is moved into the node, but its key is `const` and is copied. -/
def insert (key : K) (val : V) : Body K V (Outcome V) := do
  match ← construct shape.key key with
  | .error e => pure (.alloc e)
  | .ok first => do
    match ← construct shape.mapped val with
    | .error e => do
      destruct first
      pure (.alloc e)
    | .ok second => do
      let ns ← nodes
      match find ns key with
      | some _ => do
        destruct second
        destruct first
        pure (.inserted false)
      | none => do
        match ← allocate shape.node 1 with
        | .error e => do
          destruct second
          destruct first
          pure (.alloc e)
        | .ok place => do
          match ← construct shape.key key with
          | .error e => do
            deallocate place
            destruct second
            destruct first
            pure (.alloc e)
          | .ok copy => do
            setNodes (link ⟨copy, second, place⟩ ns)
            destruct first
            pure (.inserted true)

def at' (k : K) : Body K V (Outcome V) := do
  match ← construct shape.key k with
  | .error e => pure (.alloc e)
  | .ok tmp => do
    let ns ← nodes
    match find ns k with
    | none => do
      destruct tmp
      pure .outOfRange
    | some n => do
      match ← construct shape.mapped n.mapped.value with
      | .error e => do
        destruct tmp
        pure (.alloc e)
      | .ok copy => do
        destruct tmp
        pure (.value copy)

def erase (k : K) : Body K V (Outcome V) := do
  match ← construct shape.key k with
  | .error e => pure (.alloc e)
  | .ok tmp => do
    let ns ← nodes
    match find ns k with
    | none => do
      destruct tmp
      pure (.erased 0)
    | some n => do
      setNodes (unlink k ns)
      destruct n.mapped
      destruct n.key
      deallocate n.place
      destruct tmp
      pure (.erased 1)

def size : Body K V (Outcome V) := do
  let ns ← nodes
  pure (.size ns.length)

/-- What runs between the constructor and the destructor of `SemLock`. -/
def Op.body : Op K V → Body K V (Outcome V)
  | .count k => Shmem.count shape k
  | .update key val => Shmem.update shape key val
  | .insert key val => Shmem.insert shape key val
  | .at k => Shmem.at' shape k
  | .erase k => Shmem.erase shape k
  | .size => Shmem.size

end Operations
end Sphere.Shmem
