import Sphere.Shmem.Operations

/-! What the operations of `SharedMap` mean: each one serves a finite map, or is refused and
leaves it as it was, and what it took from the pool is afterwards the map's, the caller's or
back in the pool. -/

namespace Sphere.Shmem

open Lib

variable {K V U : Type}

/-! The tree. -/

section Tree

variable [LinearOrder K] {ns : List (Node K V)} {n : Node K V} {k : K}

def Ordered (ns : List (Node K V)) : Prop := ns.Pairwise fun a b => a.key.value < b.key.value

/-- The map that the nodes stand for. -/
def contents (ns : List (Node K V)) (k : K) : Option V := (find ns k).map fun n => n.mapped.value

theorem Ordered.find_iff (h : Ordered ns) : find ns k = some n ↔ n ∈ ns ∧ n.key.value = k := by
  constructor
  · intro hf
    exact ⟨List.mem_of_find?_eq_some hf, by simpa using List.find?_some hf⟩
  · rintro ⟨hn, rfl⟩
    induction ns with
    | nil => cases hn
    | cons a ns ih =>
      obtain ⟨ha, h⟩ := List.pairwise_cons.mp h
      rcases List.mem_cons.mp hn with rfl | hn
      · exact List.find?_cons_of_pos (by simp)
      · rw [find, List.find?_cons_of_neg (by simpa using (ha n hn).ne)]
        exact ih h hn

theorem find_eq_none_iff : find ns k = none ↔ ∀ n ∈ ns, n.key.value ≠ k := by
  simp [find]

theorem Ordered.contents_iff (h : Ordered ns) {v : V} :
    contents ns k = some v ↔ ∃ n ∈ ns, n.key.value = k ∧ n.mapped.value = v := by
  simp only [contents, Option.map_eq_some_iff, h.find_iff, and_assoc]

theorem contents_isSome : (contents ns k).isSome = (find ns k).isSome := Option.isSome_map ..

theorem Ordered.link (h : Ordered ns) (hn : find ns n.key.value = none) :
    Ordered (link n ns) := by
  rw [find_eq_none_iff] at hn
  induction ns with
  | nil => exact List.pairwise_singleton ..
  | cons a ns ih =>
    obtain ⟨ha, hns⟩ := List.pairwise_cons.mp h
    rw [Shmem.link, List.orderedInsert_cons]
    split_ifs with hlt
    · refine List.pairwise_cons.mpr ⟨fun b hb => ?_, h⟩
      rcases List.mem_cons.mp hb with rfl | hb
      · exact hlt
      · exact hlt.trans (ha b hb)
    · have hgt : a.key.value < n.key.value :=
        lt_of_le_of_ne (not_lt.mp hlt) (hn a (List.mem_cons_self ..))
      refine List.pairwise_cons.mpr ⟨fun b hb => ?_, ih hns fun b hb => hn b (.tail _ hb)⟩
      rcases (List.mem_orderedInsert _).mp hb with rfl | hb
      · exact hgt
      · exact ha b hb

theorem Ordered.unlink (h : Ordered ns) (k : K) : Ordered (unlink k ns) :=
  h.sublist List.filter_sublist

theorem Ordered.assign (h : Ordered ns) (k : K) (o : Object V) : Ordered (assign k o ns) := by
  have hkey : ∀ m : Node K V,
      (if m.key.value = k then { m with mapped := o } else m).key = m.key := by
    intro m
    split_ifs <;> rfl
  refine List.pairwise_map.mpr (h.imp fun {a b} hab => ?_)
  rw [hkey a, hkey b]
  exact hab

/-- The node that is found, and the others. -/
theorem Ordered.perm_unlink (h : Ordered ns) (hf : find ns k = some n) :
    ns.Perm (n :: Shmem.unlink k ns) := by
  induction ns with
  | nil => cases hf
  | cons a ns ih =>
    obtain ⟨ha, hns⟩ := List.pairwise_cons.mp h
    by_cases hk : a.key.value = k
    · have hall : Shmem.unlink k ns = ns :=
        List.filter_eq_self.mpr fun b hb => by simpa using (hk ▸ ha b hb).ne'
      rw [find, List.find?_cons_of_pos (by simpa using hk)] at hf
      rw [Shmem.unlink, List.filter_cons_of_neg (by simpa using hk), ← Shmem.unlink, hall,
        Option.some.inj hf]
    · rw [find, List.find?_cons_of_neg (by simpa using hk)] at hf
      rw [Shmem.unlink, List.filter_cons_of_pos (by simpa using hk)]
      exact ((ih hns hf).cons a).trans (List.Perm.swap ..)

theorem Ordered.perm_assign (h : Ordered ns) (hf : find ns k = some n) (o : Object V) :
    (Shmem.assign k o ns).Perm ({ n with mapped := o } :: Shmem.unlink k ns) := by
  have hmap := (h.perm_unlink hf).map fun m => if m.key.value = k then { m with mapped := o } else m
  rw [List.map_cons, if_pos (h.find_iff.mp hf).2] at hmap
  refine hmap.trans (List.Perm.of_eq (congrArg (_ :: ·) ?_))
  refine (List.map_congr_left fun m hm => ?_).trans (List.map_id _)
  rw [if_neg (by simpa using (List.mem_filter.mp hm).2), id]

theorem contents_link (h : Ordered ns) (hn : find ns n.key.value = none) :
    contents (link n ns) = Function.update (contents ns) n.key.value (some n.mapped.value) := by
  have hl := h.link hn
  ext k v
  rw [hl.contents_iff]
  simp only [link, List.mem_orderedInsert, Function.update_apply, exists_eq_or_imp]
  split_ifs with hk
  · subst hk
    rw [Option.some.injEq]
    have hnot : ¬ ∃ m ∈ ns, m.key.value = n.key.value ∧ m.mapped.value = v :=
      fun ⟨m, hm, he, _⟩ => find_eq_none_iff.mp hn m hm he
    simp [hnot]
  · rw [h.contents_iff]
    simp [Ne.symm hk]

theorem contents_unlink (h : Ordered ns) (k : K) :
    contents (unlink k ns) = Function.update (contents ns) k none := by
  ext k' v
  rw [(h.unlink k).contents_iff]
  simp only [unlink, List.mem_filter, decide_eq_true_eq, Function.update_apply]
  split_ifs with hk
  · subst hk
    simp +contextual
  · rw [h.contents_iff]
    constructor
    · rintro ⟨m, ⟨hm, -⟩, hv⟩
      exact ⟨m, hm, hv⟩
    · rintro ⟨m, hm, rfl, hv⟩
      exact ⟨m, ⟨hm, hk⟩, rfl, hv⟩

theorem contents_assign (h : Ordered ns) (hf : find ns k = some n) (o : Object V) :
    contents (assign k o ns) = Function.update (contents ns) k (some o.value) := by
  have hkey := (h.find_iff.mp hf).2
  ext k' v
  rw [(h.assign k o).contents_iff]
  simp only [(h.perm_assign hf o).mem_iff, List.mem_cons, exists_eq_or_imp, hkey]
  rw [Function.update_apply]
  split_ifs with hk
  · subst hk
    rw [Option.some.injEq]
    have hnot : ¬ ∃ m ∈ unlink k' ns, m.key.value = k' ∧ m.mapped.value = v :=
      fun ⟨m, hm, he, _⟩ => by simpa [he] using (List.mem_filter.mp hm).2
    simp [hnot]
  · rw [← (h.unlink k).contents_iff, contents_unlink h, Function.update_of_ne hk]
    simp [Ne.symm hk]

/-- How many keys the map has. -/
theorem Ordered.ncard (h : Ordered ns) : {k | contents ns k ≠ none}.ncard = ns.length := by
  classical
  have hset : {k | contents ns k ≠ none} = ((ns.map fun n => n.key.value).toFinset : Set K) := by
    ext k
    rw [Set.mem_ofPred_eq, Option.ne_none_iff_exists']
    simp only [h.contents_iff, List.coe_toFinset, List.mem_map, Set.mem_ofPred_eq]
    constructor
    · rintro ⟨_, n, hn, hk, -⟩
      exact ⟨n, hn, hk⟩
    · rintro ⟨n, hn, hk⟩
      exact ⟨_, n, hn, hk, rfl⟩
  have hnodup : (ns.map fun n => n.key.value).Nodup :=
    List.pairwise_map.mpr (h.imp fun hab => hab.ne)
  rw [hset, Set.ncard_coe_finset, List.toFinset_card_of_nodup hnodup, List.length_map]

end Tree

/-! Whose the allocations are. -/

def Object.owned (o : Object U) : Multiset Allocation := o.buffer.elim 0 fun a => {a}

def Node.owned (n : Node K V) : Multiset Allocation := {n.place} + n.key.owned + n.mapped.owned

def owned (ns : List (Node K V)) : Multiset Allocation := (ns.map Node.owned).sum

/-- What the caller is given with the result. -/
def Outcome.owned : Outcome V → Multiset Allocation
  | .value o => o.owned
  | _ => 0

/-- What an operation works on: the allocations that are the map's or its own, the nodes, and
the errors that its requests have been answered with. -/
structure View (K V : Type) where
  own : Multiset Allocation
  nodes : List (Node K V)
  refused : List AllocError

def contract : Contract (Cmd K V) Cmd.Answer (View K V) where
  needs
    | .deallocate a, w => a ∈ w.own
    | _, _ => True
  gives
    | .allocate size n, w, r, w' =>
      (∃ a, r = .ok a ∧ a.size = size ∧ a.n = n ∧ w' = { w with own := {a} + w.own }) ∨
      ∃ e, r = .error e ∧ w' = { w with refused := w.refused ++ [e] }
    | .deallocate a, w, _, w' => w' = { w with own := w.own.erase a }
    | .nodes, w, r, w' => r = w.nodes ∧ w' = w
    | .setNodes ns, w, _, w' => w' = { w with nodes := ns }

section Rules

variable {own own' : Multiset Allocation} {ns : List (Node K V)} {refused : List AllocError}

theorem wp_allocate {size n : ℕ} {Q : Except AllocError Allocation → View K V → Prop}
    (hok : ∀ a, Q (.ok a) ⟨{a} + own, ns, refused⟩)
    (herr : ∀ e, Q (.error e) ⟨own, ns, refused ++ [e]⟩) :
    Program.wp contract Q (allocate size n) ⟨own, ns, refused⟩ := by
  refine Program.wp_perform trivial ?_
  rintro r w' (⟨a, rfl, -, -, rfl⟩ | ⟨e, rfl, rfl⟩)
  · exact hok a
  · exact herr e

theorem wp_deallocate {a : Allocation} {Q : Unit → View K V → Prop} (h : own = {a} + own')
    (hq : Q () ⟨own', ns, refused⟩) : Program.wp contract Q (deallocate a) ⟨own, ns, refused⟩ := by
  subst h
  refine Program.wp_perform (Multiset.mem_add.mpr (.inl (Multiset.mem_singleton_self a))) ?_
  rintro ⟨⟩ w' rfl
  rwa [Multiset.singleton_add, Multiset.erase_cons_head]

theorem wp_nodes {Q : List (Node K V) → View K V → Prop} (hq : Q ns ⟨own, ns, refused⟩) :
    Program.wp contract Q nodes ⟨own, ns, refused⟩ := by
  refine Program.wp_perform trivial ?_
  rintro r w' ⟨rfl, rfl⟩
  exact hq

theorem wp_setNodes {ns' : List (Node K V)} {Q : Unit → View K V → Prop}
    (hq : Q () ⟨own, ns', refused⟩) : Program.wp contract Q (setNodes ns') ⟨own, ns, refused⟩ := by
  refine Program.wp_perform trivial ?_
  rintro ⟨⟩ w' rfl
  exact hq

theorem wp_construct {chars : Chars U} {u : U} {Q : Except AllocError (Object U) → View K V → Prop}
    (hok : ∀ o : Object U, o.value = u → Q (.ok o) ⟨o.owned + own, ns, refused⟩)
    (herr : ∀ e, Q (.error e) ⟨own, ns, refused ++ [e]⟩) :
    Program.wp contract Q (construct chars u) ⟨own, ns, refused⟩ := by
  unfold construct
  split
  · have h := hok ⟨u, none⟩ rfl
    rwa [Object.owned, Option.elim_none, zero_add] at h
  · exact Program.wp_bind.mpr (wp_allocate (fun a => hok ⟨u, some a⟩ rfl) herr)

theorem wp_destruct {o : Object U} {Q : Unit → View K V → Prop} (h : own = o.owned + own')
    (hq : Q () ⟨own', ns, refused⟩) : Program.wp contract Q (destruct o) ⟨own, ns, refused⟩ := by
  unfold destruct
  unfold Object.owned at h
  split
  · next hb =>
    rw [hb, Option.elim_none, zero_add] at h
    rwa [h]
  · next a hb =>
    rw [hb, Option.elim_some] at h
    exact wp_deallocate h hq

/-- The object is the one that was assigned, with a buffer for each that it had. -/
theorem wp_moveAssign {o val : Object U} {Q : Object U → View K V → Prop}
    (h : own = o.owned + val.owned + own')
    (hq : ∀ o' : Object U, o'.value = val.value → Q o' ⟨o'.owned + own', ns, refused⟩) :
    Program.wp contract Q (moveAssign o val) ⟨own, ns, refused⟩ := by
  unfold moveAssign
  unfold Object.owned at h
  split
  · next hb =>
    rw [hb, Option.elim_none, add_zero] at h
    rw [h]
    exact hq ⟨val.value, o.buffer⟩ rfl
  · next a hb =>
    rw [hb, Option.elim_some] at h
    refine Program.wp_bind.mpr (wp_destruct (h.trans (add_assoc ..)) ?_)
    exact hq ⟨val.value, some a⟩ rfl

end Rules

section Serving

variable [LinearOrder K] {m : K → Option V} {ns : List (Node K V)} {n : Node K V} {k : K}

theorem owned_link : owned (link n ns) = n.owned + owned ns :=
  ((List.perm_orderedInsert _ n ns).map Node.owned).sum_eq.trans (List.sum_cons ..)

theorem owned_unlink (h : Ordered ns) (hf : find ns k = some n) :
    owned ns = n.owned + owned (unlink k ns) :=
  ((h.perm_unlink hf).map Node.owned).sum_eq.trans (List.sum_cons ..)

theorem owned_assign (h : Ordered ns) (hf : find ns k = some n) (o : Object V) :
    owned (assign k o ns) = {n.place} + n.key.owned + o.owned + owned (unlink k ns) :=
  ((h.perm_assign hf o).map Node.owned).sum_eq.trans (List.sum_cons ..)

/-- What the map is for: the calls of a finite map. A call that has been refused a request
may throw the error and leave the map as it was. -/
inductive Serves (refused : List AllocError) (m : K → Option V) :
    Op K V → Outcome V → (K → Option V) → Prop
  | refused {op : Op K V} {e : AllocError} (h : op ≠ .size) (he : e ∈ refused) :
      Serves refused m op (.alloc e) m
  | count (k : K) : Serves refused m (.count k) (.count (if (m k).isSome then 1 else 0)) m
  | update (k : K) (v : V) (h : m k ≠ none) :
      Serves refused m (.update k v) .updated (Function.update m k (some v))
  | updateNone (k : K) (v : V) (h : m k = none) : Serves refused m (.update k v) .outOfRange m
  | insert (k : K) (v : V) (h : m k = none) :
      Serves refused m (.insert k v) (.inserted true) (Function.update m k (some v))
  | insertSome (k : K) (v : V) (h : m k ≠ none) :
      Serves refused m (.insert k v) (.inserted false) m
  | at (k : K) (o : Object V) (h : m k = some o.value) : Serves refused m (.at k) (.value o) m
  | atNone (k : K) (h : m k = none) : Serves refused m (.at k) .outOfRange m
  | erase (k : K) (h : m k ≠ none) :
      Serves refused m (.erase k) (.erased 1) (Function.update m k none)
  | eraseNone (k : K) (h : m k = none) : Serves refused m (.erase k) (.erased 0) m
  | size : Serves refused m .size (.size {k | m k ≠ none}.ncard) m

/-- The calls, in the order in which they left the map, have made `m` of an empty map. Those
that could not wait for the semaphore have done nothing. -/
inductive History : List (Done K V) → (K → Option V) → Prop
  | nil : History [] fun _ => none
  | served {calls : List (Done K V)} {m m' : K → Option V} (c : Done K V) (h : History calls m)
      (hs : Serves (refusals c.requests) m c.op c.outcome m') : History (calls ++ [c]) m'
  | interrupted {calls : List (Done K V)} {m : K → Option V} (p : ℕ) (op : Op K V)
      (h : History calls m) : History (calls ++ [⟨p, op, .semaphoreError, []⟩]) m

/-- The nodes stand for `m`, and all there is beside what is theirs is `extra`. -/
structure Rests (m : K → Option V) (extra own : Multiset Allocation) (ns : List (Node K V)) :
    Prop where
  ordered : Ordered ns
  own : own = extra + owned ns
  contents : contents ns = m

/-- The operation has served `m`. -/
def Ends (m : K → Option V) (op : Op K V) (out : Outcome V) (w : View K V) : Prop :=
  ∃ m', Serves w.refused m op out m' ∧ Rests m' out.owned w.own w.nodes

variable {own : Multiset Allocation} {refused : List AllocError}

/-- An end without a change: nothing of what the operation took is left. -/
theorem Rests.ends (h : Rests m 0 own ns) {op : Op K V} {out : Outcome V}
    (hs : Serves refused m op out m) (ho : out.owned = 0) : Ends m op out ⟨own, ns, refused⟩ :=
  ⟨m, hs, h.ordered, by rw [h.own, ho], h.contents⟩

/-- The last request was refused. -/
theorem Rests.throws (h : Rests m 0 own ns) {op : Op K V} (hop : op ≠ .size) (e : AllocError) :
    Ends m op (.alloc e) ⟨own, ns, refused ++ [e]⟩ :=
  h.ends (.refused hop (List.mem_append_right _ (List.mem_singleton_self e))) rfl

theorem Rests.find_none (h : Rests m 0 own ns) :
    find ns k = none ↔ m k = none := by
  rw [← h.contents, Shmem.contents, Option.map_eq_none_iff]

theorem Rests.find_some (h : Rests m 0 own ns) (hf : find ns k = some n) :
    m k = some n.mapped.value := by
  rw [← h.contents, Shmem.contents, hf, Option.map_some]

variable (shape : Shape K V)

theorem Rests.own_eq (h : Rests m 0 own ns) : own = owned ns := h.own.trans (zero_add _)

theorem count_ends (h : Rests m 0 own ns) (k : K) :
    Program.wp contract (Ends m (.count k)) (count shape k) ⟨own, ns, refused⟩ := by
  refine Program.wp_bind.mpr (wp_construct (fun tmp _ => ?_) fun e => ?_)
  · refine Program.wp_bind.mpr (wp_nodes (Program.wp_bind.mpr (wp_destruct rfl ?_)))
    refine h.ends ?_ rfl
    have hcount : (m k).isSome = (find ns k).isSome := by
      rw [← h.contents, contents_isSome]
    rw [← hcount]
    exact .count k
  · exact h.throws (by simp) e

theorem update_ends (h : Rests m 0 own ns) (k : K) (v : V) :
    Program.wp contract (Ends m (.update k v)) (update shape k v) ⟨own, ns, refused⟩ := by
  refine Program.wp_bind.mpr (wp_construct (fun val hval => ?_) fun e => ?_)
  · refine Program.wp_bind.mpr (wp_construct (fun tmp _ => ?_) fun e => ?_)
    · refine Program.wp_bind.mpr (wp_nodes ?_)
      cases hf : find ns k with
      | none =>
        refine Program.wp_bind.mpr (wp_destruct rfl (Program.wp_bind.mpr (wp_destruct rfl ?_)))
        exact h.ends (.updateNone k v (h.find_none.mp hf)) rfl
      | some n =>
        have hm := h.find_some hf
        have hown : tmp.owned + (val.owned + own) = n.mapped.owned + val.owned +
            (tmp.owned + ({n.place} + n.key.owned + owned (unlink k ns))) := by
          rw [h.own_eq, owned_unlink h.ordered hf, Node.owned]
          abel
        refine Program.wp_bind.mpr (wp_moveAssign hown fun o ho => ?_)
        refine Program.wp_bind.mpr (wp_setNodes (Program.wp_bind.mpr ?_))
        refine wp_destruct (?_ : _ = tmp.owned + owned (assign k o ns)) ?_
        · rw [owned_assign h.ordered hf]
          abel
        · refine ⟨_, .update k v (by simp [hm]), h.ordered.assign k o, (zero_add _).symm, ?_⟩
          rw [contents_assign h.ordered hf, ho, hval]
          exact congrArg (Function.update · k (some v)) h.contents
    · refine Program.wp_bind.mpr (wp_destruct rfl ?_)
      exact h.throws (by simp) e
  · exact h.throws (by simp) e

theorem insert_ends (h : Rests m 0 own ns) (k : K) (v : V) :
    Program.wp contract (Ends m (.insert k v)) (insert shape k v) ⟨own, ns, refused⟩ := by
  refine Program.wp_bind.mpr (wp_construct (fun first _ => ?_) fun e => ?_)
  · refine Program.wp_bind.mpr (wp_construct (fun second hsecond => ?_) fun e => ?_)
    · -- what is left once the pair is destroyed
      have hpair {errors : List AllocError} {out : Outcome V}
          (hs : Serves errors m (.insert k v) out m) (ho : out.owned = 0) :
          Program.wp contract (Ends m (.insert k v))
            (do destruct second; destruct first; pure out)
            ⟨second.owned + (first.owned + own), ns, errors⟩ :=
        Program.wp_bind.mpr (wp_destruct rfl (Program.wp_bind.mpr (wp_destruct rfl
          (h.ends hs ho))))
      refine Program.wp_bind.mpr (wp_nodes ?_)
      cases hf : find ns k with
      | some n =>
        refine hpair (.insertSome k v ?_) rfl
        simp [h.find_some hf]
      | none =>
        refine Program.wp_bind.mpr (wp_allocate (fun place => ?_) fun e => ?_)
        · refine Program.wp_bind.mpr (wp_construct (fun copy hcopy => ?_) fun e => ?_)
          · refine Program.wp_bind.mpr (wp_setNodes (Program.wp_bind.mpr ?_))
            have hnone : find ns (⟨copy, second, place⟩ : Node K V).key.value = none :=
              hcopy ▸ hf
            refine wp_destruct
              (?_ : _ = first.owned + owned (link ⟨copy, second, place⟩ ns)) ?_
            · rw [owned_link, Node.owned, h.own_eq]
              abel
            · refine ⟨_, .insert k v (h.find_none.mp hf), h.ordered.link hnone,
                (zero_add _).symm, ?_⟩
              rw [contents_link h.ordered hnone, hcopy, hsecond]
              exact congrArg (Function.update · k (some v)) h.contents
          · refine Program.wp_bind.mpr (wp_deallocate rfl ?_)
            exact hpair (.refused (by simp) (by simp)) rfl
        · exact hpair (.refused (by simp) (by simp)) rfl
    · refine Program.wp_bind.mpr (wp_destruct rfl ?_)
      exact h.throws (by simp) e
  · exact h.throws (by simp) e

theorem at_ends (h : Rests m 0 own ns) (k : K) :
    Program.wp contract (Ends m (.at k)) (at' shape k) ⟨own, ns, refused⟩ := by
  refine Program.wp_bind.mpr (wp_construct (fun tmp _ => ?_) fun e => ?_)
  · refine Program.wp_bind.mpr (wp_nodes ?_)
    cases hf : find ns k with
    | none =>
      refine Program.wp_bind.mpr (wp_destruct rfl ?_)
      exact h.ends (.atNone k (h.find_none.mp hf)) rfl
    | some n =>
      refine Program.wp_bind.mpr (wp_construct (fun copy hcopy => ?_) fun e => ?_)
      · refine Program.wp_bind.mpr (wp_destruct (add_left_comm ..) ?_)
        refine ⟨m, .at k copy ?_, h.ordered, ?_, h.contents⟩
        · rw [h.find_some hf, hcopy]
        · rw [h.own_eq]
          rfl
      · refine Program.wp_bind.mpr (wp_destruct rfl ?_)
        exact h.throws (by simp) e
  · exact h.throws (by simp) e

theorem erase_ends (h : Rests m 0 own ns) (k : K) :
    Program.wp contract (Ends m (.erase k)) (erase shape k) ⟨own, ns, refused⟩ := by
  refine Program.wp_bind.mpr (wp_construct (fun tmp _ => ?_) fun e => ?_)
  · refine Program.wp_bind.mpr (wp_nodes ?_)
    cases hf : find ns k with
    | none =>
      refine Program.wp_bind.mpr (wp_destruct rfl ?_)
      exact h.ends (.eraseNone k (h.find_none.mp hf)) rfl
    | some n =>
      have hown : tmp.owned + own =
          n.mapped.owned + (n.key.owned + ({n.place} + (tmp.owned + owned (unlink k ns)))) := by
        rw [h.own_eq, owned_unlink h.ordered hf, Node.owned]
        abel
      refine Program.wp_bind.mpr (wp_setNodes (Program.wp_bind.mpr (wp_destruct hown ?_)))
      refine Program.wp_bind.mpr (wp_destruct rfl (Program.wp_bind.mpr (wp_deallocate rfl ?_)))
      refine Program.wp_bind.mpr (wp_destruct rfl ?_)
      refine ⟨_, .erase k ?_, h.ordered.unlink k, (zero_add _).symm, ?_⟩
      · simp [h.find_some hf]
      · rw [contents_unlink h.ordered]
        exact congrArg (Function.update · k none) h.contents
  · exact h.throws (by simp) e

/-- Each operation serves the map, on every way out. -/
theorem Op.body_ends {w : View K V} (h : Rests m 0 w.own w.nodes) (op : Op K V) :
    Program.wp contract (Ends m op) (op.body shape) w := by
  cases op with
  | count k => exact count_ends shape h k
  | update key val => exact update_ends shape h key val
  | insert key val => exact insert_ends shape h key val
  | «at» k => exact at_ends shape h k
  | erase k => exact erase_ends shape h k
  | size =>
    refine Program.wp_bind.mpr (wp_nodes (h.ends ?_ rfl))
    rw [← h.ordered.ncard, h.contents]
    exact .size

end Serving
end Sphere.Shmem
