import Sphere.Http.Events

/-! The timeout list of `HttpService`. A worker that closes a connection leaves the node
of its place in the list, the timeout scan takes it out, and a reuse of the place moves
the node as if it were still there. While only places are used again that have a node,
or the list is empty and no event for the place is left, every open place has one node
and its iterator designates it. -/

namespace Sphere.Http

open Lib Net SlotPool

/-- The iterator of place `p` designates a node of `p`. -/
def Service.Linked (s : Service) (p : ℕ) : Prop := ∃ n, s.iter p = some n ∧ s.timeod.Mem n p

/-- The open places, `skip` apart, are linked, and no node is left over. -/
structure Service.Lists (s : Service) (skip : Option ℕ) : Prop where
  own : ∀ n p, s.timeod.Mem n p → s.iter p = some n ∧ p < s.size
  linked : ∀ p, (s.conn p).valid = true → skip ≠ some p → s.Linked p

/-- The nodes are the same, and so is the first unless it is the node of `p`. -/
structure Reorders (p : ℕ) (s s' : Service) : Prop where
  iter : ∀ q, s'.iter q = s.iter q
  mem : ∀ n q, s'.timeod.Mem n q ↔ s.timeod.Mem n q
  front : ∀ n q, s.timeod.front = some (n, q) → q ≠ p → s'.timeod.front = some (n, q)

theorem Service.Linked.congr {s s' : Service} {p : ℕ} (h : s.Linked p)
    (hl : s'.timeod = s.timeod) (hi : s'.iter p = s.iter p) : s'.Linked p := by
  obtain ⟨n, hn, hm⟩ := h
  exact ⟨n, hi.trans hn, hl ▸ hm⟩

theorem Reorders.linked {p q : ℕ} {s s' : Service} (h : Reorders p s s') (hq : s.Linked q) :
    s'.Linked q := by
  obtain ⟨n, hn, hm⟩ := hq
  exact ⟨n, (h.iter q).trans hn, (h.mem n q).mpr hm⟩

theorem setIter_self {s : Service} {p n : ℕ} (h : s.iter p = some n) (q : ℕ) :
    (s.setIter p n).iter q = s.iter q := by
  rw [setIter_iter]
  split
  · rename_i hq
    rw [hq, h]
  · rfl

/-- Moving the node that the place's iterator designates. -/
theorem splice_reorders {s : Service} {p n : ℕ} (hn : s.iter p = some n)
    (hm : s.timeod.Mem n p) : ∃ l, s.timeod.spliceToBack n = some l ∧ l.back = some (n, p) ∧
      Reorders p s ({ s with timeod := l }.setIter p n) := by
  obtain ⟨l, hl, hmem, hback, hfront⟩ := NodeList.spliceToBack_of_mem hm
  refine ⟨l, hl, hback, fun q => setIter_self (s := { s with timeod := l }) hn q, hmem, ?_⟩
  intro m q hq hne
  refine hfront m q hq ?_
  rintro rfl
  exact hne ((NodeList.mem_of_front hq).unique hm)

theorem shiftToBack_reorders {s : Service} {p : ℕ} (h : s.Linked p) (stray : NodeList ℕ) :
    Reorders p s (s.shiftToBack p stray) := by
  obtain ⟨n, hn, hm⟩ := h
  obtain ⟨l, hl, hback, hr⟩ := splice_reorders hn hm
  unfold Service.shiftToBack
  simp only [hn, Option.bind_some, hl, hback]
  exact hr

theorem relink_reorders {s : Service} {p : ℕ} (h : s.Linked p) (stray : NodeList ℕ) :
    Reorders p s (s.relink p stray) := by
  obtain ⟨n, hn, hm⟩ := h
  obtain ⟨l, hl, hback, hr⟩ := splice_reorders hn hm
  have hne : s.timeod.nodes ≠ [] := fun hnil => NodeList.not_mem_of_nil hnil n p hm
  unfold Service.relink
  simp only [hn, Option.bind_some, hl, hback, if_neg hne]
  exact hr

theorem Service.Lists.reorder {s s' : Service} {p : ℕ} {skip : Option ℕ} (h : s.Lists skip)
    (hr : Reorders p s s') (hsize : s'.size = s.size)
    (hv : ∀ q, (s'.conn q).valid = true → (s.conn q).valid = true) : s'.Lists skip := by
  refine ⟨fun n q hm => ?_, fun q hq hs => hr.linked (h.linked q (hv q hq) hs)⟩
  rw [hr.iter, hsize]
  exact h.own n q ((hr.mem n q).mp hm)

/-- A node for a place that has none. -/
theorem Service.Lists.linkBack {s : Service} {p : ℕ} (h : s.Lists (some p))
    (hp : p < s.size) (hno : ∀ n, ¬ s.timeod.Mem n p) : (s.linkBack p).Lists none := by
  unfold Service.linkBack
  refine ⟨fun n q hm => ?_, fun q hq _ => ?_⟩
  · rw [setIter_timeod, NodeList.mem_pushBack] at hm
    rw [setIter_iter]
    obtain hm | ⟨rfl, rfl⟩ := hm
    · have hqp : q ≠ p := by
        rintro rfl
        exact hno n hm
      rw [if_neg hqp]
      exact h.own n q hm
    · exact ⟨if_pos rfl, hp⟩
  · by_cases hqp : q = p
    · subst hqp
      refine ⟨s.timeod.next, ?_, ?_⟩
      · rw [setIter_iter, if_pos rfl]
      · rw [setIter_timeod]
        exact NodeList.mem_pushBack.mpr (.inr ⟨rfl, rfl⟩)
    · rw [setIter_conn] at hq
      obtain ⟨n, hn, hm⟩ := h.linked q hq fun heq => hqp (Option.some.inj heq).symm
      refine ⟨n, ?_, ?_⟩
      · rw [setIter_iter, if_neg hqp]
        exact hn
      · rw [setIter_timeod]
        exact NodeList.mem_pushBack.mpr (.inl hm)

/-- Taking out the first node, whose place has been closed. -/
theorem Service.Lists.popFront {s : Service} {p n : ℕ} (h : s.Lists none)
    (hf : s.timeod.front = some (n, p)) (hv : (s.conn p).valid = false) :
    Service.Lists { s with timeod := s.timeod.popFront } none := by
  refine ⟨fun m q hm => h.own m q ((NodeList.mem_popFront hf).mp hm).1, fun q hq hs => ?_⟩
  obtain ⟨m, hm, hmem⟩ := h.linked q hq hs
  refine ⟨m, hm, (NodeList.mem_popFront hf).mpr ⟨hmem, ?_⟩⟩
  rintro rfl
  obtain rfl : q = p := hmem.unique (NodeList.mem_of_front hf)
  exact absurd (hq.symm.trans hv) (by simp)

/-- What leaves the list and the iterators alone. -/
theorem Service.Lists.same {s s' : Service} {skip skip' : Option ℕ} (h : s.Lists skip)
    (hl : s'.timeod = s.timeod) (hi : ∀ q, s'.iter q = s.iter q) (hsize : s.size ≤ s'.size)
    (hv : ∀ q, (s'.conn q).valid = true → skip' ≠ some q →
      (s.conn q).valid = true ∧ skip ≠ some q) : s'.Lists skip' := by
  refine ⟨fun n q hm => ?_, fun q hq hs => ?_⟩
  · rw [hl] at hm
    rw [hi]
    exact ⟨(h.own n q hm).1, (h.own n q hm).2.trans_le hsize⟩
  · obtain ⟨hq, hs⟩ := hv q hq hs
    exact (h.linked q hq hs).congr hl (hi q)

/-! The service. -/

/-- The place that the acceptor is putting a connection into. -/
def Acceptor.placing : Acceptor → Option ℕ
  | .replaced p | .popped p | .emplaced p => some p
  | _ => none

/-- The place that the scan is closing. -/
def Acceptor.scans : Acceptor → Option ℕ
  | .closing p | .halfClosed p | .popping p => some p
  | _ => none

/-- What holds while the acceptor is in the middle of something. -/
def System.Between (σ : System) : Prop :=
  match σ.acceptor with
  | .replaced p | .popped p =>
    σ.service.Linked p ∨ σ.service.timeod.nodes = [] ∧ p < σ.service.size ∧ σ.Unnamed p
  | .emplaced p => (∀ n, ¬ σ.service.timeod.Mem n p) ∧ p < σ.service.size ∧ σ.Unnamed p
  | .closing p | .halfClosed p => ∃ n, σ.service.timeod.front = some (n, p)
  | .popping p => (∃ n, σ.service.timeod.front = some (n, p)) ∧ (σ.service.conn p).valid = false
  | _ => True

structure System.Lists (σ : System) : Prop where
  named : σ.Named
  lists : σ.service.Lists σ.acceptor.placing
  between : σ.Between

/-- A closed place is used again only while it has a node in the list, or the list is
empty and no worker has an event for the place; and the scan closes a place only while
it still is the first. -/
def KeepsNodes (σ : System) : Act → Prop
  | .acceptor _ =>
    match σ.acceptor with
    | .accepted _ => ∀ p ∈ σ.service.closed.head?, p ∈ σ.service.timeod.elems ∨
        σ.service.timeod.nodes = [] ∧ ∀ i, ∀ e ∈ (σ.worker i).events, e.place ≠ p
    | .scanning p => (σ.service.conn p).valid = true → σ.service.timedOut p = true →
        p ∈ σ.service.timeod.front.map Prod.snd
    | _ => True
  | _ => True

/-- What the other threads leave of it. -/
theorem System.Between.other {σ σ' : System} (h : σ.Between) (ha : σ'.acceptor = σ.acceptor)
    (hi : ∀ q, σ'.service.iter q = σ.service.iter q)
    (hm : ∀ n q, σ'.service.timeod.Mem n q ↔ σ.service.timeod.Mem n q)
    (hsize : σ'.service.size = σ.service.size)
    (hf : ∀ n q, σ.acceptor.scans = some q → σ.service.timeod.front = some (n, q) →
      σ'.service.timeod.front = some (n, q))
    (hu : ∀ q, σ.Unnamed q → σ'.Unnamed q)
    (hv : ∀ q, (σ.service.conn q).valid = false → (σ'.service.conn q).valid = false) :
    σ'.Between := by
  have hlinked : ∀ q, σ.service.Linked q → σ'.service.Linked q := fun q ⟨n, hn, hmem⟩ =>
    ⟨n, (hi q).trans hn, (hm n q).mpr hmem⟩
  have hnil : σ.service.timeod.nodes = [] → σ'.service.timeod.nodes = [] := by
    intro hnil
    refine List.eq_nil_iff_forall_not_mem.mpr fun m hmem => ?_
    exact NodeList.not_mem_of_nil hnil m.1 m.2 ((hm m.1 m.2).mp hmem)
  unfold System.Between at h ⊢
  rw [ha]
  cases hacc : σ.acceptor with
  | replaced p =>
    rw [hacc] at h
    exact h.imp (hlinked p) fun ⟨hn, hp, hun⟩ => ⟨hnil hn, hsize ▸ hp, hu p hun⟩
  | popped p =>
    rw [hacc] at h
    exact h.imp (hlinked p) fun ⟨hn, hp, hun⟩ => ⟨hnil hn, hsize ▸ hp, hu p hun⟩
  | emplaced p =>
    rw [hacc] at h
    exact ⟨fun n hmem => h.1 n ((hm n p).mp hmem), hsize ▸ h.2.1, hu p h.2.2⟩
  | closing p =>
    rw [hacc] at h hf
    exact h.imp fun n hn => hf n p rfl hn
  | halfClosed p =>
    rw [hacc] at h hf
    exact h.imp fun n hn => hf n p rfl hn
  | popping p =>
    rw [hacc] at h hf
    exact ⟨h.1.imp fun n hn => hf n p rfl hn, hv p h.2⟩
  | _ => trivial

/-- A worker about to move its place has the iterator of a node. -/
theorem System.Lists.linked_entered {σ : System} (h : σ.Lists) {i : ℕ} {e : Event}
    {es : List Event} (hpc : (σ.worker i).pc = .entered) (he : (σ.worker i).events = e :: es) :
    σ.service.Linked e.place := by
  have hstage := h.named.closes.pool.stage (.worker i)
  rw [show σ.pool.stage (.worker i) = .saw e.place by
    simp [System.pool, System.stage, Service.pool, Worker.stage, hpc, he]] at hstage
  have hnamed : ¬ σ.Unnamed e.place := fun hu => hu.2 i e (by simp [he]) rfl
  by_cases hp : σ.acceptor.placing = some e.place
  · have hb := h.between
    unfold System.Between at hb
    cases hacc : σ.acceptor <;> rw [hacc] at hp hb <;> cases hp
    · exact hb.resolve_right fun hn => hnamed hn.2.2
    · exact hb.resolve_right fun hn => hnamed hn.2.2
    · exact absurd hb.2.2 hnamed
  · exact h.lists.linked e.place hstage.2 hp

/-- The scan has another place than a worker that is serving one. -/
theorem System.Lists.scans_ne {σ : System} (h : σ.Lists) {i p : ℕ} {e : Event}
    {es : List Event} (hpc : (σ.worker i).pc = .entered) (he : (σ.worker i).events = e :: es)
    (hs : σ.acceptor.scans = some p) : p ≠ e.place := by
  have hworker := h.named.closes.pool.stage (.worker i)
  rw [show σ.pool.stage (.worker i) = .saw e.place by
    simp [System.pool, System.stage, Service.pool, Worker.stage, hpc, he]] at hworker
  have hacceptor := h.named.closes.pool.stage .acceptor
  rw [show σ.pool.stage .acceptor = σ.acceptor.stage false from rfl] at hacceptor
  have hb := h.between
  unfold System.Between at hb
  rintro rfl
  cases hacc : σ.acceptor <;> rw [hacc] at hs hb hacceptor <;> cases hs
  · exact absurd (hacceptor.1.symm.trans hworker.1) (by simp)
  · exact absurd (hacceptor.2.1.symm.trans hworker.1) (by simp)
  · exact absurd (hb.2.symm.trans hworker.2) (by simp)

theorem System.Lists.workerStep {σ : System} {i : ℕ} {x : Input} {s : Service} {w : Worker}
    {out : Bool} (h : σ.Lists) (hstep : (σ.worker i).step i x σ.service = some (s, w, out))
    (hn : System.Named { σ with service := s, worker := Function.update σ.worker i w,
                                halted := out }) :
    System.Lists { σ with service := s, worker := Function.update σ.worker i w,
                          halted := out } := by
  have hmove := Worker.step_move hstep
  have hclosed : ∀ q, (σ.service.conn q).valid = false → (s.conn q).valid = false := fun q =>
    (hmove.settles q).valid
  have hvalid : ∀ q, (s.conn q).valid = true → (σ.service.conn q).valid = true := by
    intro q hq
    by_contra hn
    exact absurd (hq.symm.trans (hclosed q (by simpa using hn))) (by simp)
  have hun : ∀ q, σ.Unnamed q → System.Unnamed { σ with
      service := s, worker := Function.update σ.worker i w, halted := out } q :=
    fun q hq => hq.worker hstep
  have hlist : (s.timeod = σ.service.timeod ∧ ∀ q, s.iter q = σ.service.iter q) ∨
      ∃ e, (∀ q, σ.acceptor.scans = some q → q ≠ e) ∧ Reorders e σ.service s := by
    cases hmove with
    | idle => exact .inl ⟨rfl, fun _ => rfl⟩
    | take => exact .inl ⟨rfl, fun _ => setMutex_iter ..⟩
    | skip => exact .inl ⟨rfl, fun _ => rfl⟩
    | leave => exact .inl ⟨rfl, fun _ => setMutex_iter ..⟩
    | handle e _ _ _ _ _ hh => exact .inl ⟨hh.touches.timeod, hh.touches.iter⟩
    | reset e es stray hpc he =>
      -- the place of a worker about to serve it has a node, so moving it only reorders
      have hr := shiftToBack_reorders (s := σ.service.setConn e.place
          { σ.service.conn e.place with start := σ.service.now })
        ((h.linked_entered hpc he).congr rfl (setConn_iter ..)) stray
      exact .inr ⟨e.place, fun q => h.scans_ne hpc he,
        fun q => (hr.iter q).trans (setConn_iter ..), hr.mem, hr.front⟩
  obtain ⟨htimeod, hiter⟩ | ⟨e, hne, hr⟩ := hlist
  · refine ⟨hn, h.lists.same htimeod hiter hmove.size.ge fun q hq hs => ⟨hvalid q hq, hs⟩, ?_⟩
    exact h.between.other rfl hiter (fun n q => by rw [htimeod]) hmove.size
      (fun n q _ hf => htimeod ▸ hf) hun hclosed
  · refine ⟨hn, h.lists.reorder hr hmove.size hvalid, ?_⟩
    exact h.between.other rfl hr.iter hr.mem hmove.size
      (fun n q hs hf => hr.front n q hf (hne q hs)) hun hclosed

theorem Service.Lists.unskip {s : Service} {p : ℕ} (h : s.Lists (some p)) (hp : s.Linked p) :
    s.Lists none := by
  refine ⟨h.own, fun q hq _ => ?_⟩
  by_cases hqp : q = p
  · exact hqp ▸ hp
  · exact h.linked q hq fun heq => hqp (Option.some.inj heq).symm

/-- An open place used to be open, or is the one skipped now. -/
theorem putConn_valid {s : Service} {p id q : ℕ} (hq : ((s.putConn p id).conn q).valid = true)
    (hs : some p ≠ some q) : (s.conn q).valid = true := by
  have hqp : q ≠ p := by
    rintro rfl
    exact hs rfl
  unfold Service.putConn at hq
  rwa [setConn_conn, if_neg hqp] at hq

theorem Service.Lists.relink {s : Service} {p : ℕ} (h : s.Lists (some p))
    (hp : s.Linked p ∨ s.timeod.nodes = [] ∧ p < s.size) (stray : NodeList ℕ) :
    (s.relink p stray).Lists none := by
  obtain hp | ⟨hnil, hlt⟩ := hp
  · have hr := relink_reorders hp stray
    have ho := relink_only s p stray
    have hl := h.reorder hr ho.size fun q hq => by rwa [← ho.conn q]
    exact hl.unskip (hr.linked hp)
  · unfold Service.relink
    rw [if_pos hnil]
    exact h.linkBack hlt (NodeList.not_mem_of_nil hnil · p)

theorem System.Lists.acceptorStep {σ : System} {x : AcceptorInput} {s : Service} {a : Acceptor}
    (h : σ.Lists) (hm : KeepsNodes σ (.acceptor x))
    (hstep : σ.acceptor.step false x σ.service = some (s, a))
    (hn : System.Named { σ with service := s, acceptor := a }) :
    System.Lists { σ with service := s, acceptor := a } := by
  have hlists := h.lists
  have hb := h.between
  unfold System.Between at hb
  have hstage := h.named.closes.pool.stage .acceptor
  rw [show σ.pool.stage .acceptor = σ.acceptor.stage false from rfl] at hstage
  unfold KeepsNodes at hm
  cases hacc : σ.acceptor <;> rw [hacc] at hstep hb hlists hstage hm
  case idle =>
    simp only [Acceptor.step] at hstep
    split at hstep <;> cases hstep <;> exact ⟨hn, ⟨hlists.own, hlists.linked⟩, trivial⟩
  case accepted id =>
    simp only [Acceptor.step] at hstep
    split_ifs at hstep
    split at hstep
    · cases hstep
      exact ⟨hn, hlists, trivial⟩
    · rename_i p hp
      cases hstep
      refine ⟨hn, hlists.same rfl (fun q => setConn_iter ..) le_rfl
        fun q hq hs => ⟨putConn_valid hq hs, by simp [Acceptor.placing]⟩, ?_⟩
      obtain hmem | ⟨hnil, hnamed⟩ := hm p hp
      · obtain ⟨n, hn⟩ := NodeList.mem_elems.mp hmem
        exact .inl ⟨n, (setConn_iter ..).trans (hlists.own n p hn).1, hn⟩
      · refine .inr ⟨hnil, h.named.closes.pool.bound p (List.mem_of_head? hp), ?_, hnamed⟩
        exact congrArg (fun c : HttpConnection => c.watch) ((setConn_conn ..).trans (if_pos rfl))
  case replaced p =>
    cases hstep
    exact ⟨hn, ⟨hlists.own, hlists.linked⟩, hb⟩
  case popped p =>
    cases hstep
    have hl := hlists.relink (hb.imp_right fun hn => ⟨hn.1, hn.2.1⟩) x.stray
    exact ⟨hn, ⟨hl.own, hl.linked⟩, trivial⟩
  case emplacing id =>
    cases hstep
    refine ⟨hn, hlists.same rfl (fun q => setConn_iter ..) (Nat.le_succ _)
      fun q hq hs => ⟨putConn_valid hq hs, by simp [Acceptor.placing]⟩, ?_⟩
    refine ⟨fun n hm => absurd (hlists.own n _ hm).2 (lt_irrefl _), Nat.lt_succ_self _, ?_,
      (h.named.unnamed _ le_rfl).2⟩
    exact congrArg (fun c : HttpConnection => c.watch) ((setConn_conn ..).trans (if_pos rfl))
  case emplaced p =>
    cases hstep
    exact ⟨hn, hlists.linkBack hb.2.1 hb.1, trivial⟩
  case placed p =>
    cases hstep
    have hvalid : ∀ q,
        ((σ.service.registerConn p x.ok).conn q).valid = (σ.service.conn q).valid := by
      intro q
      refine (unseen_setConn σ.service ?_).valid q
      split <;> rfl
    exact ⟨hn, hlists.same rfl (fun q => setConn_iter ..) le_rfl
      fun q hq _ => ⟨(hvalid q).symm.trans hq, by simp [Acceptor.placing]⟩, trivial⟩
  case dumping =>
    simp only [Acceptor.step] at hstep
    split at hstep <;> cases hstep <;> exact ⟨hn, hlists, trivial⟩
  case scanning p =>
    simp only [Acceptor.step] at hstep
    split_ifs at hstep with hfree hclose <;> cases hstep
    · refine ⟨hn, hlists.same rfl (fun q => setMutex_iter ..) le_rfl fun q hq _ =>
        ⟨by rwa [setMutex_conn] at hq, by simp [Acceptor.placing]⟩, ?_⟩
      obtain ⟨⟨n, q⟩, hf, rfl⟩ := Option.mem_map.mp (hm hclose.1 hclose.2)
      exact ⟨n, hf⟩
    · exact ⟨hn, hlists, trivial⟩
  case closing p =>
    simp only [Acceptor.step] at hstep
    split at hstep <;> cases hstep
    have hset := touches_setConn (s := σ.service) (c := (σ.service.conn p).close)
      ⟨rfl, fun _ => rfl, fun _ => rfl⟩
    refine ⟨hn, hlists.same rfl hset.iter le_rfl fun q hq _ => ⟨?_, by simp [Acceptor.placing]⟩, hb⟩
    have hq : ((σ.service.setConn p (σ.service.conn p).close).conn q).valid = true := hq
    rw [setConn_conn] at hq
    split at hq
    · exact absurd hq (by simp [HttpConnection.close])
    · exact hq
  case halfClosed p =>
    cases hstep
    have hvalid : ∀ q, (((σ.service.scanClose p true).setMutex p none).conn q).valid =
        (σ.service.conn q).valid := fun q =>
      congrArg (fun c : HttpConnection => c.valid) (setMutex_conn ..)
    exact ⟨hn, hlists.same rfl (fun q => setMutex_iter ..) le_rfl fun q hq _ =>
      ⟨(hvalid q).symm.trans hq, by simp [Acceptor.placing]⟩, hb,
      (hvalid p).trans hstage.2.2.2.1⟩
  case popping p =>
    cases hstep
    obtain ⟨⟨n, hf⟩, hv⟩ := hb
    exact ⟨hn, hlists.popFront hf hv, trivial⟩
  case counting =>
    simp only [Acceptor.step] at hstep
    split at hstep <;> cases hstep
    exact ⟨hn, hlists, trivial⟩

theorem System.Lists.raiseStep {σ : System} {i : ℕ} {e : Event} {s : Service} {w : Worker}
    (h : σ.Lists) (hw : w.events = (σ.worker i).events ++ [e]) (hs : σ.service.raise e = some s)
    (hn : System.Named { σ with service := s, worker := Function.update σ.worker i w }) :
    System.Lists { σ with service := s, worker := Function.update σ.worker i w } := by
  have hun : ∀ q, σ.Unnamed q → System.Unnamed { σ with
      service := s, worker := Function.update σ.worker i w } q := fun q hq => hq.raise hw hs
  unfold Service.raise at hs
  split at hs
  · split at hs <;> cases hs
    have hvalid := (unseen_setConn σ.service
      (c := { σ.service.conn e.place with watch := .disabled }) rfl).valid
    refine ⟨hn, h.lists.same rfl (fun q => setConn_iter ..) le_rfl
      fun q hq hs => ⟨(hvalid q).symm.trans hq, hs⟩, ?_⟩
    exact h.between.other rfl (fun q => setConn_iter ..) (fun _ _ => Iff.rfl) rfl
      (fun _ _ _ hf => hf) hun fun q hq => (hvalid q).trans hq
  · cases hs

theorem System.Lists.step {σ σ' : System} {a : Act} (h : σ.Lists) (hm : KeepsNodes σ a)
    (hstep : σ.step a = some σ') : σ'.Lists := by
  have hn := h.named.step hstep
  unfold System.step at hstep
  split at hstep
  · cases hstep
  · cases a with
    | acceptor x =>
      obtain ⟨⟨s, a⟩, hs, rfl⟩ := Option.map_eq_some_iff.mp hstep
      exact h.acceptorStep hm hs hn
    | worker i x =>
      obtain ⟨⟨s, w, out⟩, hs, rfl⟩ := Option.map_eq_some_iff.mp hstep
      exact h.workerStep hs hn
    | clock t =>
      cases hstep
      exact ⟨hn, ⟨h.lists.own, h.lists.linked⟩, h.between⟩
    | raise i e =>
      simp only at hstep
      split at hstep
      · obtain ⟨s, hs, rfl⟩ := Option.map_eq_some_iff.mp hstep
        exact h.raiseStep rfl hs hn
      · cases hstep

theorem System.start_lists (connTimeo kaConnTimeo : ℕ) :
    (System.start connTimeo kaConnTimeo).Lists := by
  refine ⟨System.start_named _ _, ⟨fun n p hm => ?_, fun p hp => ?_⟩, trivial⟩
  · exact absurd hm (NodeList.not_mem_empty n p)
  · cases hp

/-- What the operations on the list rely on. -/
structure System.Listed (σ : System) : Prop where
  once : ∀ p, (σ.service.conn p).valid = true → σ.acceptor.placing ≠ some p →
    σ.service.timeod.elems.count p = 1 ∧ σ.service.Linked p
  resets : ∀ i e es, (σ.worker i).pc = .entered → (σ.worker i).events = e :: es →
    σ.service.Linked e.place
  relinks : ∀ p, σ.acceptor = .popped p → σ.service.timeod.nodes = [] ∨ σ.service.Linked p
  pops : ∀ p, σ.acceptor = .popping p → ∃ n, σ.service.timeod.front = some (n, p)

theorem System.Lists.listed {σ : System} (h : σ.Lists) : σ.Listed := by
  have hb := h.between
  unfold System.Between at hb
  refine ⟨fun p hp hs => ?_, fun i e es hpc he => h.linked_entered hpc he, fun p ha => ?_,
    fun p ha => ?_⟩
  · obtain ⟨n, hn, hm⟩ := h.lists.linked p hp hs
    refine ⟨NodeList.count_elems hm fun m hmem => ?_, n, hn, hm⟩
    exact Option.some.inj ((h.lists.own m p hmem).1.symm.trans hn)
  · rw [ha] at hb
    exact hb.symm.imp_left fun hn => hn.1
  · rw [ha] at hb
    exact hb.1

/-- In every run in which places are used again and closed as said, each open place has
its one node, and the list operations are given nodes of the list. -/
theorem timeout_list_linked {connTimeo kaConnTimeo : ℕ} {as : List Act} {σ : System}
    (hm : Transition.Along System.step KeepsNodes (System.start connTimeo kaConnTimeo) as)
    (h : (System.start connTimeo kaConnTimeo).run as = some σ) : σ.Listed :=
  (Transition.run_invariant (I := System.Lists) (fun _ _ _ hi hm hs => hi.step hm hs)
    (System.start_lists _ _) hm h).listed

/-- The next client gets the place of one that has closed its end. -/
def reuseRun : List Act := eofRun ++ accepts 8

/-- The part of the condition that looks at the list alone. -/
def keepsFirst (σ : System) : Act → Bool
  | .acceptor _ =>
    match σ.acceptor with
    | .accepted _ => σ.service.closed.head?.all (· ∈ σ.service.timeod.elems)
    | .scanning p => (σ.service.timeod.front.map Prod.snd) = some p
    | _ => true
  | _ => true

theorem keeps_of_first {σ : System} {a : Act} (h : keepsFirst σ a = true) : KeepsNodes σ a := by
  unfold keepsFirst at h
  unfold KeepsNodes
  split
  · split
    · rename_i hacc
      rw [hacc] at h
      intro p hp
      rw [Option.mem_def] at hp
      simp only [hp, Option.all_some, decide_eq_true_eq] at h
      exact .inl h
    · rename_i hacc
      rw [hacc] at h
      exact fun _ _ => by simpa using h
    · trivial
  · trivial

theorem timeout_list_linked_reuse :
    ∃ σ, (System.start 20 60).run reuseRun = some σ ∧ σ.service.closed = [] ∧
      σ.service.accepted = 2 ∧ σ.Listed := by
  have hrun : ((System.start 20 60).run reuseRun).map
      (fun σ => (σ.service.closed, σ.service.accepted)) = some ([], 2) := by decide +kernel
  have hkeeps : Transition.Along System.step (fun σ a => keepsFirst σ a = true)
      (System.start 20 60) reuseRun := by decide +kernel
  obtain ⟨σ, hσ, hq⟩ := Option.map_eq_some_iff.mp hrun
  obtain ⟨hclosed, haccepted⟩ := Prod.mk.inj hq
  have halong : Transition.Along System.step KeepsNodes (System.start 20 60) reuseRun :=
    hkeeps.imp (I := fun _ => True) (fun _ _ _ _ _ _ => trivial)
      (fun _ _ _ => keeps_of_first) trivial
  exact ⟨σ, hσ, hclosed, haccepted, timeout_list_linked halong hσ⟩

/-- Two clients; the scan closes the first and takes out its node while that of the
second stays. The next client gets the place of the first. -/
def timeoutRun : List Act :=
  accepts 8 ++ [.clock 10000000000] ++ accepts 8 ++ [.clock 25000000000] ++
    [.acceptor ⟨false, .empty⟩] ++ accepts 11

theorem timeout_list_dangling :
    ∃ σ, (System.start 20 60).run timeoutRun = some σ ∧ σ.acceptor = .popped 0 ∧
      σ.service.timeod.nodes = [(1, 1)] ∧ σ.service.iter 0 = some 0 ∧ ¬ σ.Listed := by
  have hrun : ((System.start 20 60).run timeoutRun).map (fun σ => (σ.acceptor,
      σ.service.timeod.nodes, σ.service.iter 0)) = some (.popped 0, [(1, 1)], some 0) := by
    decide +kernel
  obtain ⟨σ, hσ, hq⟩ := Option.map_eq_some_iff.mp hrun
  simp only [Prod.mk.injEq] at hq
  obtain ⟨hacc, hnodes, hiter⟩ := hq
  refine ⟨σ, hσ, hacc, hnodes, hiter, fun hl => ?_⟩
  obtain hnil | ⟨n, hn, hm⟩ := hl.relinks 0 hacc
  · exact absurd (hnodes.symm.trans hnil) (by simp)
  · rw [NodeList.Mem, hnodes] at hm
    simp [hiter] at hn hm

end Sphere.Http
