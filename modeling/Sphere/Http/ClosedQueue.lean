import Sphere.Http.Frame
import Sphere.Lib.SlotPool

/-! The queue of closed places. Under the projection below the threads of a service
are threads of a slot pool: a place is a slot, open while the socket of its connection
is valid, and `closing_mutex_` guards the queue. -/

namespace Sphere.Http

open Lib Net SlotPool Relation

def Service.pool (s : Service) (stage : Thread → Stage) : Pool Thread where
  size := s.size
  isOpen := fun p => (s.conn p).valid
  free := s.closed
  mutex := s.closingMutex
  holder := s.mutex
  stage := stage

def Acceptor.stage (pushFirst : Bool) : Acceptor → Stage
  | .replaced p => .reopening p
  | .popped _ => .settled
  | .closing p => .saw p
  | .halfClosed p => if pushFirst then .queued p else .shut p
  | _ => .idle

/-- The number of places with an open connection. -/
def Service.opened (s : Service) : ℕ := (List.range s.size).countP fun p => (s.conn p).valid

/-- What the queue of closed places is to be. -/
structure Service.Settled (s : Service) : Prop where
  nodup : s.closed.Nodup
  bound : ∀ p ∈ s.closed, p < s.size
  closed : ∀ p < s.size, p ∈ s.closed ↔ (s.conn p).valid = false
  wraps : s.closed.length ≤ s.size
  size : s.connectionsSize = BitVec.ofNat 64 s.opened

/-- The pool's invariant says so while the mutex is free. -/
theorem Service.settled {s : Service} {f : Thread → Stage} (hi : Inv (s.pool f))
    (hm : s.closingMutex = none) : s.Settled := by
  have hcount : s.closed.length + s.opened = s.size := hi.count hm
  refine ⟨hi.nodup, hi.bound, fun p hp => hi.mem_iff hm hp, by omega, ?_⟩
  unfold Service.connectionsSize
  rw [← hcount, BitVec.ofNat_add, BitVec.add_comm, BitVec.add_sub_cancel]

/-- What the pool does not see of a change of the service. -/
structure Unseen (s s' : Service) : Prop where
  size : s'.size = s.size
  valid : ∀ p, (s'.conn p).valid = (s.conn p).valid
  closed : s'.closed = s.closed
  closingMutex : s'.closingMutex = s.closingMutex
  mutex : ∀ p, s'.mutex p = s.mutex p

theorem Unseen.refl (s : Service) : Unseen s s := ⟨rfl, fun _ => rfl, rfl, rfl, fun _ => rfl⟩

theorem ListOnly.unseen {s s' : Service} (h : ListOnly s s') : Unseen s s' :=
  ⟨h.size, fun p => by rw [h.conn p], h.closed, h.closingMutex, h.mutex⟩

theorem unseen_setConn (s : Service) {p : ℕ} {c : HttpConnection}
    (h : c.valid = (s.conn p).valid) : Unseen s (s.setConn p c) := by
  refine ⟨rfl, fun q => ?_, rfl, rfl, fun q => setConn_mutex ..⟩
  by_cases hq : q = p <;> simp [hq, h]

theorem unseen_epollMod {s s' : Service} {p : ℕ} {c : HttpConnection}
    (hc : c.valid = (s.conn p).valid) (h : s.epollMod p c = some s') : Unseen s s' := by
  unfold Service.epollMod at h
  split at h
  · cases h
  · cases h
    exact unseen_setConn s hc

theorem unseen_subscribe {s s' : Service} {p : ℕ} {opt : OPTION}
    (h : s.subscribe p opt = some s') : Unseen s s' :=
  unseen_epollMod (c := (s.conn p).subscribe opt) rfl h

theorem Unseen.trans {s t u : Service} (h : Unseen s t) (h' : Unseen t u) : Unseen s u :=
  ⟨h'.size.trans h.size, fun p => (h'.valid p).trans (h.valid p), h'.closed.trans h.closed,
    h'.closingMutex.trans h.closingMutex, fun p => (h'.mutex p).trans (h.mutex p)⟩

theorem unseen_reset (s : Service) (p : ℕ) (stray : NodeList ℕ) :
    Unseen s (s.resetLastActivityTime p stray) :=
  (unseen_setConn s (c := { s.conn p with start := s.now }) rfl).trans
    (shiftToBack_only _ p stray).unseen

theorem Unseen.pool_eq {s s' : Service} (h : Unseen s s') (f : Thread → Stage) :
    s'.pool f = s.pool f :=
  Pool.ext h.size (funext h.valid) h.closed h.closingMutex (funext h.mutex) rfl

/-- A thread that keeps its stage. -/
theorem pool_unseen {s s' : Service} {f : Thread → Stage} {t : Thread} {st : Stage}
    (h : Unseen s s') (hf : f t = st) :
    ReflTransGen AnyStep (s.pool f) (s'.pool (Function.update f t st)) := by
  rw [h.pool_eq, ← hf, Function.update_eq_self]

/-- A thread that keeps the lock of a place it has seen open but no longer relies on it. -/
theorem pool_forget {s s' : Service} {f : Thread → Stage} {t : Thread} {p : ℕ}
    (h : Unseen s s') (hf : f t = .saw p) :
    ReflTransGen AnyStep (s.pool f) (s'.pool (Function.update f t (.holding p))) := by
  rw [h.pool_eq]
  exact .single ⟨t, Step.forget (s.pool f) p hf⟩

/-- Opening or closing place `p` in the pool. -/
theorem valid_setConn (s : Service) (p q : ℕ) (c : HttpConnection) :
    ((s.setConn p c).conn q).valid = Function.update (fun p => (s.conn p).valid) p c.valid q := by
  by_cases h : q = p <;> simp [h]

theorem mutex_setMutex (s : Service) (p q : ℕ) (o : Option Thread) :
    (s.setMutex p o).mutex q = Function.update s.mutex p o q := by
  by_cases h : q = p <;> simp [h]

theorem pool_setMutex (s : Service) (p : ℕ) (o : Option Thread) (f : Thread → Stage) (t : Thread)
    (stage : Stage) : (s.setMutex p o).pool (Function.update f t stage) =
      ((s.pool f).setHolder p o).enter t stage :=
  Pool.ext rfl (funext fun _ => congrArg (fun c : HttpConnection => c.valid) (setMutex_conn ..))
    rfl rfl (funext fun _ => mutex_setMutex ..) rfl

/-- The acceptor moves as a thread of the pool does. -/
theorem Acceptor.step_pool {pf : Bool} {x : AcceptorInput} {s s' : Service} {a a' : Acceptor}
    {f : Thread → Stage} (h : a.step pf x s = some (s', a')) (hf : f .acceptor = a.stage pf) :
    ReflTransGen AnyStep (s.pool f) (s'.pool (Function.update f .acceptor (a'.stage pf))) := by
  cases a with
  | idle =>
    simp only [Acceptor.step] at h
    split at h <;> cases h <;>
      exact pool_unseen ⟨rfl, fun _ => rfl, rfl, rfl, fun _ => rfl⟩ hf
  | accepted id =>
    simp only [Acceptor.step] at h
    split at h
    · rename_i hm
      split at h
      · cases h
        exact pool_unseen (.refl s) hf
      · rename_i p hp
        cases h
        refine .single ⟨.acceptor, ?_⟩
        convert Step.reopen (s.pool f) p hf hm hp using 1
        exact Pool.ext rfl (funext fun q => valid_setConn s p q _) rfl rfl
          (funext fun q => setConn_mutex ..) rfl
    · cases h
  | replaced p =>
    cases h
    exact .single ⟨.acceptor, Step.unqueue (s.pool f) p hf⟩
  | popped p =>
    cases h
    have ho := (relink_only s p x.stray).unseen
    refine .single ⟨.acceptor, ?_⟩
    convert Step.release (s.pool f) hf using 1
    exact Pool.ext ho.size (funext ho.valid) ho.closed rfl (funext ho.mutex) rfl
  | emplacing id =>
    cases h
    refine .single ⟨.acceptor, ?_⟩
    convert Step.extend (s.pool f) hf using 1
    exact Pool.ext rfl (funext fun q => valid_setConn s s.size q _) rfl rfl
      (funext fun q => setConn_mutex ..) (Function.update_eq_self_iff.mpr hf.symm)
  | emplaced p =>
    cases h
    exact pool_unseen (linkBack_only s p).unseen hf
  | placed p =>
    cases h
    refine pool_unseen (unseen_setConn s ?_) hf
    split <;> rfl
  | dumping =>
    simp only [Acceptor.step] at h
    split at h <;> cases h <;>
      exact pool_unseen (.refl s) hf
  | scanning p =>
    simp only [Acceptor.step] at h
    split at h
    · rename_i hm
      split at h
      · rename_i hv
        cases h
        rw [pool_setMutex]
        exact reaches_saw (a := s.pool f) hf hm hv.1
      · cases h
        exact pool_unseen (.refl s) hf
    · cases h
  | closing p =>
    simp only [Acceptor.step] at h
    split at h
    · rename_i hm
      cases h
      refine .single ⟨.acceptor, ?_⟩
      cases pf with
      | false =>
        convert Step.shut (s.pool f) p hf hm using 1
        exact Pool.ext rfl (funext fun q => valid_setConn s p q _) rfl rfl
          (funext fun q => setConn_mutex ..) rfl
      | true => exact Step.queue (s.pool f) p hf hm
    · cases h
  | halfClosed p =>
    cases h
    cases pf with
    | false =>
      convert reaches_queued (a := s.pool f) hf using 1
      exact Pool.ext rfl (funext fun q => congrArg (fun c : HttpConnection => c.valid)
        (setMutex_conn ..)) rfl rfl (funext fun q => mutex_setMutex ..) rfl
    | true =>
      convert reaches_shut (a := s.pool f) hf using 1
      refine Pool.ext rfl (funext fun q => ?_) rfl rfl (funext fun q => ?_) rfl
      · exact (congrArg (fun c : HttpConnection => c.valid) (setMutex_conn ..)).trans
          (valid_setConn s p q _)
      · exact (setMutex_mutex ..).trans (by simp [Service.pool, Service.scanClose])
  | popping p =>
    cases h
    exact pool_unseen (setList_only s _).unseen hf
  | counting =>
    simp only [Acceptor.step] at h
    split at h <;> cases h
    exact pool_unseen (.refl s) hf

def Worker.stage (w : Worker) : Stage :=
  match w.pc, w.events with
  | .entered, e :: _ | .serving, e :: _ | .pushing _ _, e :: _ => .saw e.place
  | .shutting _ _, e :: _ => .queued e.place
  | .finishing, e :: _ | .checking _, e :: _ | .leaving, e :: _ => .holding e.place
  | _, _ => .idle

/-- Inside `close_client` the connection that was fetched is still the place's. -/
def Worker.Fetched (s : Service) (w : Worker) : Prop :=
  match w.pc, w.events with
  | .pushing c _, e :: _ | .shutting c _, e :: _ => (s.conn e.place).id = c
  | _, _ => True

/-- After serving an event a worker has the same place in hand, and has either seen
its connection open or not. -/
theorem Worker.serveStep_pool {i : ℕ} {x : Input} {s : Service} {w : Worker} {e : Event}
    {es : List Event} {f : Thread → Stage} (hpc : w.pc = .serving) (he : w.events = e :: es)
    (hf : f (.worker i) = .saw e.place) :
    ReflTransGen AnyStep (s.pool f) ((w.serveStep x s e).1.pool
      (Function.update f (.worker i) (w.serveStep x s e).2.1.stage)) := by
  have hu : Unseen s (s.setConn e.place (serve (s.conn e.place) e x.script).1) :=
    unseen_setConn s (serve_same _ e x.script).valid
  have hsaw : w.stage = .saw e.place := by simp [Worker.stage, hpc, he]
  unfold Worker.serveStep
  dsimp only
  split
  · rw [hsaw]
    exact pool_unseen hu hf
  · rw [hsaw]
    exact pool_unseen hu hf
  · simp only [Worker.stage, he]
    exact pool_forget hu hf
  · unfold Service.subscribeThen
    split
    · rename_i s' hs
      simp only [Worker.stage, he]
      exact pool_forget (hu.trans (unseen_subscribe hs)) hf
    · rw [hsaw]
      exact pool_unseen hu hf
  · simp only [Worker.stage, he]
    exact pool_forget hu hf

theorem Worker.finishStep_pool {i : ℕ} {x : Input} {s : Service} {w : Worker} {e : Event}
    {es : List Event} {f : Thread → Stage} (hpc : w.pc = .finishing) (he : w.events = e :: es)
    (hf : f (.worker i) = .holding e.place) :
    ReflTransGen AnyStep (s.pool f) ((w.finishStep x s e).1.pool
      (Function.update f (.worker i) (w.finishStep x s e).2.1.stage)) := by
  have hhold : w.stage = .holding e.place := by simp [Worker.stage, hpc, he]
  unfold Worker.finishStep Service.subscribeThen
  split
  · simp only [Worker.stage, he]
    exact pool_unseen (.refl s) hf
  · split
    · rename_i s' hs
      simp only [Worker.stage, he]
      exact pool_unseen (unseen_subscribe hs) hf
    · rw [hhold]
      exact pool_unseen (.refl s) hf

/-- A worker moves as a thread of the pool does. -/
theorem Worker.step_pool {i : ℕ} {x : Input} {s s' : Service} {w w' : Worker} {out : Bool}
    {f : Thread → Stage} (h : w.step i x s = some (s', w', out)) (hf : f (.worker i) = w.stage)
    (hc : w.Fetched s) :
    ReflTransGen AnyStep (s.pool f) (s'.pool (Function.update f (.worker i) w'.stage)) := by
  obtain ⟨pc, events, pConn⟩ := w
  cases events with
  | nil =>
    cases pc <;> cases h <;> exact pool_unseen (.refl s) hf
  | cons e es =>
    cases pc with
    | waiting =>
      cases h
      exact pool_unseen (.refl s) hf
    | looping =>
      simp only [Worker.step] at h
      split at h
      · rename_i hm
        split at h
        · rename_i hv
          cases h
          rw [show Worker.stage _ = .saw e.place from rfl, pool_setMutex]
          exact reaches_saw (a := s.pool f) hf hm hv
        · cases h
          exact pool_unseen (.refl s) hf
      · cases h
    | entered =>
      cases h
      exact pool_unseen (unseen_reset s e.place x.stray) hf
    | serving =>
      have hstep := Worker.serveStep_pool (x := x) (s := s) (w := ⟨.serving, e :: es, pConn⟩)
        rfl rfl hf
      rw [Option.some.inj h] at hstep
      exact hstep
    | finishing =>
      have hstep := Worker.finishStep_pool (x := x) (s := s) (w := ⟨.finishing, e :: es, pConn⟩)
        rfl rfl hf
      rw [Option.some.inj h] at hstep
      exact hstep
    | checking k =>
      simp only [Worker.step] at h
      split at h
      · rename_i hv
        cases h
        exact .single ⟨.worker i, Step.see (s.pool f) e.place hf hv⟩
      · cases h
        cases k <;> exact pool_unseen (.refl s) hf
    | pushing c k =>
      simp only [Worker.step] at h
      split at h
      · rename_i hm
        cases h
        exact .single ⟨.worker i, Step.queue (s.pool f) e.place hf hm⟩
      · cases h
    | shutting c k =>
      have hid : (s.conn e.place).id = c := hc
      simp only [Worker.step, hid, if_true] at h
      cases h
      refine .single ⟨.worker i, ?_⟩
      convert Step.shutQueued (s.pool f) e.place hf using 1
      refine Pool.ext rfl (funext fun q => valid_setConn s e.place q _) rfl rfl
        (funext fun q => setConn_mutex ..) ?_
      cases k <;> rfl
    | leaving =>
      cases h
      rw [show Worker.stage _ = .idle from rfl, pool_setMutex]
      exact .single ⟨.worker i, Step.unlock (s.pool f) e.place hf⟩

theorem Worker.Fetched.other {s s' : Service} {w : Worker} (hw : w.Fetched s)
    (h : ∀ q, w.stage = .saw q ∨ w.stage = .queued q → (s'.conn q).id = (s.conn q).id) :
    w.Fetched s' := by
  obtain ⟨pc, events, pConn⟩ := w
  cases events with
  | nil => cases pc <;> trivial
  | cons e es =>
    cases pc with
    | pushing c k => exact (h e.place (.inl rfl)).trans hw
    | shutting c k => exact (h e.place (.inr rfl)).trans hw
    | _ => trivial

/-- The worker is not inside `close_client`. -/
def Outside (w : Worker) : Prop := ∀ c k, w.pc ≠ .pushing c k ∧ w.pc ≠ .shutting c k

theorem Worker.fetched_of_pc {s : Service} {w : Worker} (h : Outside w) : w.Fetched s := by
  obtain ⟨pc, events, pConn⟩ := w
  cases pc with
  | pushing c k => exact absurd rfl (h c k).1
  | shutting c k => exact absurd rfl (h c k).2
  | _ => cases events <;> trivial

theorem Worker.serveStep_pc (x : Input) (s : Service) (w : Worker) (e : Event) (h : Outside w) :
    Outside (w.serveStep x s e).2.1 := by
  unfold Worker.serveStep Service.subscribeThen
  dsimp only
  split
  · exact h
  · exact h
  · simp [Outside]
  · split
    · simp [Outside]
    · exact h
  · simp [Outside]

theorem Worker.finishStep_pc (x : Input) (s : Service) (w : Worker) (e : Event) (h : Outside w) :
    Outside (w.finishStep x s e).2.1 := by
  unfold Worker.finishStep Service.subscribeThen
  split
  · simp [Outside]
  · split
    · simp [Outside]
    · exact h

/-- A worker's own step leaves it with the connection it has fetched. -/
theorem Worker.step_fetched {i : ℕ} {x : Input} {s s' : Service} {w w' : Worker} {out : Bool}
    (h : w.step i x s = some (s', w', out)) (hw : w.Fetched s) : w'.Fetched s' := by
  obtain ⟨pc, events, pConn⟩ := w
  cases events with
  | nil => cases pc <;> cases h <;> trivial
  | cons e es =>
    cases pc with
    | checking k =>
      simp only [Worker.step] at h
      split at h <;> cases h
      · exact rfl
      · cases k <;> trivial
    | pushing c k =>
      simp only [Worker.step] at h
      split at h <;> cases h
      exact hw
    | shutting c k =>
      simp only [Worker.step] at h
      cases h
      cases k <;> trivial
    | serving =>
      have hpc := Worker.serveStep_pc x s ⟨.serving, e :: es, pConn⟩ e (fun _ _ => by simp)
      rw [Option.some.inj h] at hpc
      exact Worker.fetched_of_pc hpc
    | finishing =>
      have hpc := Worker.finishStep_pc x s ⟨.finishing, e :: es, pConn⟩ e (fun _ _ => by simp)
      rw [Option.some.inj h] at hpc
      exact Worker.fetched_of_pc hpc
    | looping =>
      simp only [Worker.step] at h
      split_ifs at h <;> cases h <;> trivial
    | _ => cases h; trivial

/-- The connection is the same one with the same responses. It is not opened, and is
registered with epoll only if it is open. -/
structure Keeps (c c' : HttpConnection) : Prop where
  id : c'.id = c.id
  valid : c.valid = false → c'.valid = false
  watch : c.valid = false → c.watch = .absent → c'.watch = .absent
  write : c'.write = c.write
  sent : c'.sent = c.sent
  replies : c'.replies = c.replies
  routine : c'.routine = c.routine

/-- What the acceptor may do to the connection of a place: keep it or, under `r`, put a
new one where it is closed. -/
def Carries (r : Prop) (c c' : HttpConnection) : Prop :=
  Keeps c c' ∨ r ∧ c.valid = false ∧ ∃ id now, c' = HttpConnection.make id now

theorem Carries.of_eq {r : Prop} {c c' : HttpConnection} (h : c' = c) : Carries r c c' := by
  rw [h]
  exact .inl ⟨rfl, fun h => h, fun _ h => h, rfl, rfl, rfl, rfl⟩

theorem carries_setConn {r : Prop} {s : Service} {p q : ℕ} {c : HttpConnection}
    (h : q = p → Carries r (s.conn p) c) : Carries r (s.conn q) ((s.setConn p c).conn q) := by
  by_cases hq : q = p
  · rw [setConn_conn, if_pos hq, hq]
    exact h hq
  · exact .of_eq ((setConn_conn ..).trans (if_neg hq))

theorem carries_scanClose (r : Prop) (s : Service) (p q : ℕ) (push : Bool) :
    Carries r (s.conn q) ((s.scanClose p push).conn q) := by
  cases push with
  | false =>
    refine carries_setConn (c := (s.conn p).close) fun _ => .inl ?_
    exact ⟨rfl, fun _ => rfl, fun _ _ => rfl, rfl, rfl, rfl, rfl⟩
  | true => exact .of_eq rfl

/-- Where the acceptor is about to put a new connection. -/
def Acceptor.Renews (a : Acceptor) (s : Service) (q : ℕ) : Prop :=
  (∃ id, a = .accepted id) ∧ s.closed.head? = some q ∨ q = s.size

/-- The acceptor changes the connection of a place only where it is not open. -/
theorem Acceptor.step_carries {pf : Bool} {x : AcceptorInput} {s s' : Service} {a a' : Acceptor}
    {f : Thread → Stage} (h : a.step pf x s = some (s', a')) (hi : Inv (s.pool f)) (q : ℕ) :
    Carries (a.Renews s q) (s.conn q) (s'.conn q) := by
  cases a with
  | idle =>
    simp only [Acceptor.step] at h
    split at h <;> cases h <;> exact .of_eq rfl
  | accepted id =>
    simp only [Acceptor.step] at h
    split at h
    · rename_i hm
      split at h
      · cases h
        exact .of_eq rfl
      · rename_i p hp
        cases h
        have hmem : p ∈ (s.pool f).free := List.mem_of_head? hp
        have hclosed : (s.conn p).valid = false := (hi.mem_iff hm (hi.bound p hmem)).mp hmem
        exact carries_setConn fun hq => .inr ⟨.inl ⟨⟨id, rfl⟩, hq ▸ hp⟩, hclosed, _, _, rfl⟩
    · cases h
  | replaced p =>
    cases h
    exact .of_eq rfl
  | popped p =>
    cases h
    exact .of_eq ((relink_only ..).conn q)
  | emplacing id =>
    cases h
    have hclosed : (s.conn s.size).valid = false := by
      rw [← Bool.not_eq_true]
      exact fun hv => absurd (hi.opened s.size hv) (lt_irrefl _)
    exact carries_setConn fun hq => .inr ⟨.inr hq, hclosed, _, _, rfl⟩
  | emplaced p =>
    cases h
    exact .of_eq ((linkBack_only ..).conn q)
  | placed p =>
    cases h
    refine carries_setConn fun _ => .inl ?_
    split <;> rename_i hreg
    · refine ⟨rfl, fun h => h, fun hv => ?_, rfl, rfl, rfl, rfl⟩
      rw [Bool.and_eq_true] at hreg
      exact absurd (hv.symm.trans hreg.2) (by simp)
    · exact ⟨rfl, fun h => h, fun _ h => h, rfl, rfl, rfl, rfl⟩
  | dumping =>
    simp only [Acceptor.step] at h
    split at h <;> cases h <;> exact .of_eq rfl
  | scanning p =>
    simp only [Acceptor.step] at h
    split_ifs at h <;> cases h
    · exact .of_eq (setMutex_conn ..)
    · exact .of_eq rfl
  | closing p =>
    simp only [Acceptor.step] at h
    split at h <;> cases h
    exact carries_scanClose _ s p q pf
  | halfClosed p =>
    cases h
    have hclose := carries_scanClose (Renews (.halfClosed p) s q) s p q !pf
    rwa [← setMutex_conn (s.scanClose p !pf) p q none] at hclose
  | popping p =>
    cases h
    exact .of_eq rfl
  | counting =>
    simp only [Acceptor.step] at h
    split at h <;> cases h
    exact .of_eq rfl

/-- The acceptor closes only the place whose mutex it has. -/
theorem Acceptor.step_valid {pf : Bool} {x : AcceptorInput} {s s' : Service} {a a' : Acceptor}
    {q : ℕ} (h : a.step pf x s = some (s', a')) (hv : (s.conn q).valid = true)
    (hc : (a.stage pf).slot ≠ some q) : (s'.conn q).valid = true := by
  have hset : ∀ p (c : HttpConnection), (q = p → c.valid = true) →
      ((s.setConn p c).conn q).valid = true := by
    intro p c hc
    by_cases hq : q = p
    · rw [setConn_conn, if_pos hq]
      exact hc hq
    · rw [setConn_conn, if_neg hq]
      exact hv
  have hclose : ∀ p push, q ≠ p → ((s.scanClose p push).conn q).valid = true := by
    intro p push hq
    cases push with
    | false => exact hset p _ fun h => absurd h hq
    | true => exact hv
  cases a with
  | accepted id =>
    simp only [Acceptor.step] at h
    split_ifs at h
    split at h <;> cases h
    · exact hv
    · exact hset _ _ fun _ => rfl
  | popped p =>
    cases h
    exact (congrArg (fun c : HttpConnection => c.valid) ((relink_only s p x.stray).conn q)).trans hv
  | emplacing id =>
    cases h
    exact hset _ _ fun _ => rfl
  | emplaced p =>
    cases h
    exact (congrArg (fun c : HttpConnection => c.valid) ((linkBack_only s p).conn q)).trans hv
  | placed p =>
    cases h
    refine hset _ _ fun hq => ?_
    subst hq
    split <;> exact hv
  | scanning p =>
    simp only [Acceptor.step] at h
    split_ifs at h <;> cases h
    · rw [setMutex_conn]
      exact hv
    · exact hv
  | closing p =>
    simp only [Acceptor.step] at h
    split at h <;> cases h
    refine hclose p pf ?_
    rintro rfl
    exact hc rfl
  | halfClosed p =>
    cases h
    have hq : q ≠ p := by
      rintro rfl
      cases pf <;> exact hc rfl
    exact (congrArg (fun c : HttpConnection => c.valid) (setMutex_conn ..)).trans (hclose p _ hq)
  | idle | dumping | counting =>
    simp only [Acceptor.step] at h
    split at h <;> cases h
    all_goals exact hv
  | _ =>
    cases h
    exact hv

theorem Carries.watch {r : Prop} {c c' : HttpConnection} (h : Carries r c c')
    (hv : c.valid = false) (hw : c.watch = .absent) : c'.watch = .absent := by
  obtain h | ⟨-, -, id, now, h⟩ := h
  · exact h.watch hv hw
  · rw [h]
    rfl

theorem Carries.id_eq {r : Prop} {c c' : HttpConnection} (h : Carries r c c')
    (hv : c.valid = true) : c'.id = c.id := by
  obtain h | ⟨-, hc, -⟩ := h
  · exact h.id
  · exact absurd (hv.symm.trans hc) (by simp)

/-! The whole service. -/

def System.stage (σ : System) : Thread → Stage
  | .acceptor => σ.acceptor.stage false
  | .worker i => (σ.worker i).stage

def System.pool (σ : System) : Pool Thread := σ.service.pool σ.stage

structure System.Closes (σ : System) : Prop where
  pool : Inv σ.pool
  fetched : ∀ i, (σ.worker i).Fetched σ.service

theorem System.stage_acceptor (σ : System) (s : Service) (a : Acceptor) :
    System.stage { σ with service := s, acceptor := a } =
      Function.update σ.stage .acceptor (a.stage false) := by
  funext t
  cases t <;> simp [System.stage]

theorem System.stage_worker (σ : System) (s : Service) (i : ℕ) (w : Worker) (b : Bool) :
    System.stage { σ with service := s, worker := Function.update σ.worker i w, halted := b } =
      Function.update σ.stage (.worker i) w.stage := by
  funext t
  cases t with
  | acceptor => simp [System.stage]
  | worker j => by_cases hj : j = i <;> simp [System.stage, hj]

/-- What epoll has to do with a socket is all that changes. -/
theorem raise_conn {s s' : Service} {e : Event} (h : s.raise e = some s') (q : ℕ) :
    s'.conn q = { s.conn q with watch := (s'.conn q).watch } := by
  unfold Service.raise at h
  split at h
  · obtain ⟨-, h⟩ := Option.ite_none_right_eq_some.mp h
    cases h
    by_cases hq : q = e.place
    · rw [setConn_conn, if_pos hq, hq]
    · rw [setConn_conn, if_neg hq]
  · cases h

theorem raise_same {s s' : Service} {e : Event} (h : s.raise e = some s') :
    Unseen s s' ∧ ∀ q, (s'.conn q).id = (s.conn q).id := by
  unfold Service.raise at h
  split at h
  · split at h
    · cases h
      exact ⟨unseen_setConn s rfl, setConn_id (c := { s.conn e.place with watch := .disabled }) rfl⟩
    · cases h
  · cases h

theorem raise_pool {σ : System} {i : ℕ} {s : Service} {e : Event} {es : List Event}
    (hw : (σ.worker i).pc = .waiting) (h : σ.service.raise e = some s) :
    ReflTransGen AnyStep σ.pool (System.pool
      { σ with
        service := s
        worker := Function.update σ.worker i { σ.worker i with events := es } }) := by
  unfold System.pool
  rw [System.stage_worker σ s i { σ.worker i with events := es } σ.halted]
  refine pool_unseen (raise_same h).1 ?_
  simp [System.stage, Worker.stage, hw]

/-- The service moves as the pool does. -/
theorem System.step_pool {σ σ' : System} {a : Act} (h : σ.step a = some σ')
    (hf : ∀ i, (σ.worker i).Fetched σ.service) : ReflTransGen AnyStep σ.pool σ'.pool := by
  obtain ⟨-, h⟩ := Option.ite_none_left_eq_some.mp h
  cases a with
  | acceptor x =>
    obtain ⟨⟨s, a⟩, hstep, rfl⟩ := Option.map_eq_some_iff.mp h
    unfold System.pool
    rw [System.stage_acceptor σ s a]
    exact Acceptor.step_pool (f := σ.stage) hstep rfl
  | worker i x =>
    obtain ⟨⟨s, w, out⟩, hstep, rfl⟩ := Option.map_eq_some_iff.mp h
    unfold System.pool
    rw [System.stage_worker σ s i w out]
    exact Worker.step_pool (f := σ.stage) hstep rfl (hf i)
  | clock t =>
    cases h
    exact .refl
  | raise i e =>
    obtain ⟨hw, h⟩ := Option.ite_none_right_eq_some.mp h
    obtain ⟨s, hs, rfl⟩ := Option.map_eq_some_iff.mp h
    exact raise_pool hw hs

theorem System.Closes.step {σ σ' : System} {a : Act} (hi : σ.Closes) (h : σ.step a = some σ') :
    σ'.Closes := by
  refine ⟨hi.pool.reaches (System.step_pool h hi.fetched), fun j => ?_⟩
  obtain ⟨-, h⟩ := Option.ite_none_left_eq_some.mp h
  cases a with
  | acceptor x =>
    obtain ⟨⟨s, a⟩, hstep, rfl⟩ := Option.map_eq_some_iff.mp h
    refine (hi.fetched j).other fun q hq => (Acceptor.step_carries hstep hi.pool q).id_eq ?_
    have hstage := hi.pool.stage (.worker j)
    obtain hq | hq := hq
    · rw [show σ.pool.stage (.worker j) = .saw q from hq] at hstage
      exact hstage.2
    · rw [show σ.pool.stage (.worker j) = .queued q from hq] at hstage
      exact hstage.2.2.2
  | worker i x =>
    obtain ⟨⟨s, w, out⟩, hstep, rfl⟩ := Option.map_eq_some_iff.mp h
    by_cases hj : j = i
    · subst hj
      simpa using Worker.step_fetched hstep (hi.fetched j)
    · simpa [hj] using (hi.fetched j).other fun q _ => Worker.step_id hstep q
  | clock t =>
    cases h
    exact hi.fetched j
  | raise i e =>
    obtain ⟨hw, h⟩ := Option.ite_none_right_eq_some.mp h
    obtain ⟨s, hs, rfl⟩ := Option.map_eq_some_iff.mp h
    by_cases hj : j = i
    · subst hj
      simpa using Worker.fetched_of_pc (by simp [Outside, hw])
    · simpa [hj] using (hi.fetched j).other fun q _ => (raise_same hs).2 q

theorem System.start_closes (connTimeo kaConnTimeo : ℕ) :
    (System.start connTimeo kaConnTimeo).Closes := by
  refine ⟨⟨List.nodup_nil, ?_, ?_, ?_, ?_⟩, fun i => trivial⟩
  · intro p hp
    cases hp
  · intro p hp
    cases hp
  · intro t
    cases t <;> trivial
  · intro p hp
    cases hp

end Sphere.Http
