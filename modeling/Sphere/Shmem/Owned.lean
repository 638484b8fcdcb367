import Sphere.Shmem.Linearizable

/-! Every block of the pool is somebody's: of a node of the map, of a value that a caller was
given, or of a call that is under way. `destroy` returns the blocks of the nodes. -/

namespace Sphere.Shmem

open Lib Lib.Transition

variable {K V : Type}

namespace Shared

variable {σ : Shared}

theorem mem_own {a : Allocation} : a ∈ σ.own ↔ ⟨a, none⟩ ∈ σ.live := by
  simp only [own, Multiset.mem_coe, List.mem_map, List.mem_filter, decide_eq_true_eq]
  constructor
  · rintro ⟨⟨b, _⟩, ⟨hv, rfl⟩, rfl⟩
    exact hv
  · intro hv
    exact ⟨_, ⟨hv, rfl⟩, rfl⟩

end Shared

/-- The allocation belongs to a node of the map, or to a value that a process was given. -/
def Sharing.Held (s : Sharing K V) (a : Allocation) : Prop :=
  a ∈ owned s.nodes ∨ ∃ p, (⟨a, some p⟩ : Value) ∈ s.shared.live

namespace Sharing

variable [Platform] [LinearOrder K] {shape : Shape K V} {s : Sharing K V}

/-- What is left when the calls are over. -/
theorem Safe.own_eq (h : Safe s) (hnone : ∀ p, s.running p = none) :
    s.shared.own = owned s.nodes := by
  obtain ⟨m, hm⟩ := h.serving
  exact (hm.resting hnone).own.trans (zero_add _)

end Sharing

/-- What `~map` returns to the pool: of each node the value, the key and the node. -/
def destroyed (ns : List (Node K V)) : List Allocation :=
  ns.flatMap fun n => n.mapped.buffer.toList ++ n.key.buffer.toList ++ [n.place]

end Sphere.Shmem
