import Sphere.Cor.ClosedQueue
import Sphere.Http.Delivery

/-! The routines in the runs in which no worker takes up an event of a closed connection.
The routine of an open connection that nobody serves rests behind a `yield` of
`serve_client` for that very place and connection; while a worker serves the place, the
worker is where the code says it is, and nobody else touches the routine. -/

namespace Sphere.Cor

open Lib Net Http SlotPool

/-- Routine `r` has been created for place `p`. -/
def At (st : State) (r p : ℕ) : Prop :=
  ∃ routine, st.main.routines[r]? = some routine ∧ routine.func = p

/-- The connections that are fetched on the routine's stack are the place's, as far as the
code behind the `yield` uses them, and a request is read with an empty buffer to write. -/
structure Behind (st : State) (r p : ℕ) (k : Point) : Prop where
  inner : k ≠ .replied → (st.frame r).inner = (st.service.conn p).id
  write : k = .reading → (st.service.conn p).write = []

/-- What the resume of the routine finds. -/
def Resumable (st : State) (p r : ℕ) : Prop :=
  ∃ routine, st.main.routines[r]? = some routine ∧ routine.func = p ∧
    match routine.ctx with
    | .entry => (st.service.conn p).write = []
    | .yielded k => (st.frame r).serve = (st.service.conn p).id ∧ Behind st r p k
    | .returned => False

/-- An open connection that nobody serves. -/
structure Rests (st : State) (p : ℕ) : Prop where
  idle : (st.service.conn p).routine = none → (st.service.conn p).write = []
  waits : ∀ r, (st.service.conn p).routine = some r → Resumable st p r

/-- A worker is in the function of routine `r`, which is one of place `p`. -/
structure Inside (st : State) (r p : ℕ) : Prop where
  routine : At st r p
  only : ∀ k, (st.service.conn p).routine = some k → k = r

/-- The same, with the connection open and the routine its own. -/
structure Active (st : State) (r p : ℕ) : Prop where
  routine : At st r p
  valid : (st.service.conn p).valid = true
  own : (st.service.conn p).routine = some r
  serve : (st.frame r).serve = (st.service.conn p).id

/-- At the end of the function, where the connection may be a later one. -/
def Ends (st : State) (r p : ℕ) : Then → Prop
  | .yield _ => False
  | .finish => (st.service.conn p).valid = true → (st.service.conn p).write = [] ∧
      ((st.service.conn p).routine = none ∨ (st.service.conn p).id = (st.frame r).serve)
  | .ret => (st.service.conn p).valid = true → (st.service.conn p).write = [] ∧
      (st.service.conn p).routine = none

def Worker.OkAt (st : State) (w : Worker) (p : ℕ) : Pc → Prop
  | .waiting | .looping => True
  | .entered => (st.service.conn p).valid = true ∧ (st.service.conn p).id = w.pConn ∧ Rests st p
  | .resuming => (st.service.conn p).valid = true ∧
      (st.service.conn p).routine = some w.routine ∧ Resumable st p w.routine
  | .starting => Active st w.routine p ∧ (st.service.conn p).write = []
  | .reading => Active st w.routine p ∧ Behind st w.routine p .reading
  | .writing => Active st w.routine p ∧ Behind st w.routine p .writing
  | .modding _ (.yield k) => Active st w.routine p ∧ Behind st w.routine p k
  | .modding _ k => Inside st w.routine p ∧ Ends st w.routine p k
  | .finishing => Inside st w.routine p ∧ Ends st w.routine p .finish
  | .checking k | .pushing _ k | .shutting _ k => Inside st w.routine p ∧ ∀ j, k ≠ .yield j
  | .leaving => (st.service.conn p).valid = true → Rests st p
  | .astray _ => False

def Worker.Ok (st : State) (w : Worker) : Prop :=
  match w.events with
  | [] => True
  | e :: _ => w.OkAt st e.place w.pc

/-- What a step of a worker on an event of place `p` leaves alone. -/
structure Beside (p : ℕ) (st st' : State) : Prop where
  conn : ∀ q, q ≠ p → st'.service.conn q = st.service.conn q
  routine : ∀ (r : ℕ) (routine : Routine ℕ Point Failure), st.main.routines[r]? = some routine →
    routine.func ≠ p → st'.main.routines[r]? = some routine
  frame : ∀ r q, At st r q → q ≠ p → st'.frame r = st.frame r
  stays : ∀ r q, At st r q → At st' r q
  home : ∀ r, (st'.service.conn p).routine = some r →
    (st.service.conn p).routine = some r ∨ At st' r p
  queue : st'.main.finished = st.main.finished
  unmarked : (∀ routine ∈ st.main.routines, routine.finished = false) →
    ∀ routine ∈ st'.main.routines, routine.finished = false

section Beside

variable {p r : ℕ} {st st' st'' : State}

theorem Beside.refl (p : ℕ) (st : State) : Beside p st st :=
  ⟨fun _ _ => rfl, fun _ _ h _ => h, fun _ _ _ _ => rfl, fun _ _ h => h, fun _ h => .inl h, rfl,
    fun h => h⟩

theorem Beside.trans (h : Beside p st st') (h' : Beside p st' st'') : Beside p st st'' := by
  refine ⟨fun q hq => (h'.conn q hq).trans (h.conn q hq), fun r routine hr hp => ?_, ?_,
    fun r q hr => h'.stays r q (h.stays r q hr), fun r hr => ?_, h'.queue.trans h.queue,
    fun hm => h'.unmarked (h.unmarked hm)⟩
  · exact h'.routine r routine (h.routine r routine hr hp) hp
  · intro r q hr hq
    exact (h'.frame r q (h.stays r q hr) hq).trans (h.frame r q hr hq)
  · rcases h'.home r hr with hr | hr
    · rcases h.home r hr with hr | hr
      · exact .inl hr
      · exact .inr (h'.stays r p hr)
    · exact .inr hr

/-- What touches the connection of the place alone. -/
theorem beside_service {s : Service} (hc : ∀ q, q ≠ p → s.conn q = st.service.conn q)
    (hr : ∀ r, (s.conn p).routine = some r → (st.service.conn p).routine = some r) :
    Beside p st { st with service := s } :=
  ⟨hc, fun _ _ h _ => h, fun _ _ _ _ => rfl, fun _ _ h => h, fun r h => .inl (hr r h), rfl,
    fun h => h⟩

theorem beside_setConn {c : HttpConnection}
    (hr : ∀ r, c.routine = some r → (st.service.conn p).routine = some r) :
    Beside p st (st.setConn p c) := by
  refine beside_service (fun q hq => (setConn_conn ..).trans (if_neg hq)) fun r h => hr r ?_
  rwa [setConn_conn, if_pos rfl] at h

theorem beside_setFrame (hr : At st r p) (fr : Frame) : Beside p st (st.setFrame r fr) := by
  refine ⟨fun _ _ => rfl, fun _ _ h _ => h, fun k q hk hq => Function.update_of_ne ?_ _ _,
    fun _ _ h => h, fun _ h => .inl h, rfl, fun h => h⟩
  rintro rfl
  obtain ⟨routine, hget, rfl⟩ := hr
  obtain ⟨routine', hget', rfl⟩ := hk
  exact hq (congrArg Routine.func (Option.some.inj (hget'.symm.trans hget)))

theorem beside_setCurrent (i : ℕ) (o : Option ℕ) : Beside p st (st.setCurrent i o) :=
  ⟨fun _ _ => rfl, fun _ _ h _ => h, fun _ _ _ _ => rfl, fun _ _ h => h, fun _ h => .inl h, rfl,
    fun h => h⟩

theorem getElem?_update {m : MainOrdinator ℕ Point Failure} {routine : Routine ℕ Point Failure}
    (hr : r < m.routines.length) (k : ℕ) :
    (m.update r routine).routines[k]? = if k = r then some routine else m.routines[k]? := by
  by_cases hk : k = r
  · subst hk
    simp [MainOrdinator.update, hr]
  · simp [MainOrdinator.update, hk, Ne.symm hk]

/-- A routine's own function and its marks stay. -/
theorem stop_func (routine : Routine ℕ Point Failure) (out : Stop Point Failure) :
    (routine.stop out).func = routine.func ∧ (routine.stop out).finished = routine.finished := by
  cases out <;> exact ⟨rfl, rfl⟩

theorem stop_eq {routine : Routine ℕ Point Failure} (hr : st.main.routines[r]? = some routine)
    (out : Stop Point Failure) :
    st.stop r out = { st with main := st.main.update r (routine.stop out) } := by
  unfold State.stop
  rw [hr]

theorem beside_stop (hr : At st r p) (out : Stop Point Failure) : Beside p st (st.stop r out) := by
  obtain ⟨routine, hget, rfl⟩ := hr
  have hlen : r < st.main.routines.length := (List.getElem?_eq_some_iff.mp hget).1
  obtain ⟨hfunc, hfin⟩ := stop_func routine out
  rw [stop_eq hget]
  refine ⟨fun _ _ => rfl, fun k other hk hp => ?_, fun _ _ _ _ => rfl, ?_, fun _ h => .inl h, rfl,
    fun hm other ho => ?_⟩
  · dsimp only
    rw [getElem?_update hlen, if_neg]
    · exact hk
    · rintro rfl
      exact hp (congrArg Routine.func (Option.some.inj (hk.symm.trans hget)))
  · rintro k q ⟨other, hk, rfl⟩
    unfold At
    dsimp only
    rw [getElem?_update hlen]
    split
    · rename_i hkr
      subst hkr
      obtain rfl := Option.some.inj (hk.symm.trans hget)
      exact ⟨_, rfl, hfunc⟩
    · exact ⟨other, hk, rfl⟩
  · rcases List.mem_or_eq_of_mem_set ho with ho | rfl
    · exact hm other ho
    · rw [hfin]
      exact hm routine (List.mem_of_getElem? hget)

/-- With an empty queue `create` makes a new routine. -/
theorem create_eq {m : MainOrdinator ℕ Point Failure} (hq : m.finished = []) (p : ℕ) :
    m.create p = ({ m with routines := m.routines ++ [.fresh p] }, m.routines.length) := by
  unfold MainOrdinator.create
  rw [hq]

theorem at_append {l : List (Routine ℕ Point Failure)} {routine other : Routine ℕ Point Failure}
    (h : l[r]? = some routine) : (l ++ [other])[r]? = some routine := by
  rw [List.getElem?_append_left (List.getElem?_eq_some_iff.mp h).1]
  exact h

/-- The state with a new routine for the place, of which nothing is known but that. -/
def State.grown (st : State) (p : ℕ) (fr : Frame) : State :=
  ({ st with main := { st.main with routines := st.main.routines ++ [.fresh p] } } : State).setFrame
    st.main.routines.length fr

theorem beside_create (fr : Frame) (c : HttpConnection)
    (hc : c.routine = some st.main.routines.length) :
    Beside p st ((st.grown p fr).setConn p c) := by
  refine ⟨fun q hq => (setConn_conn ..).trans (if_neg hq), fun _ _ h _ => at_append h,
    ?_, ?_, ?_, rfl, fun hm routine hr => ?_⟩
  · rintro k q ⟨routine, hk, -⟩ -
    refine Function.update_of_ne ?_ _ _
    have hlt := (List.getElem?_eq_some_iff.mp hk).1
    omega
  · rintro k q ⟨routine, hk, rfl⟩
    exact ⟨routine, at_append hk, rfl⟩
  · intro r hr
    rw [State.setConn, setConn_conn, if_pos rfl, hc] at hr
    obtain rfl := Option.some.inj hr
    exact .inr ⟨.fresh p, by simp [State.setConn, State.grown, State.setFrame], rfl⟩
  · rcases List.mem_append.mp hr with hr | hr
    · exact hm routine hr
    · obtain rfl := List.mem_singleton.mp hr
      rfl

end Beside

/-! The steps of a worker. -/

section Steps

variable {p r : ℕ} {x : Input} {st st' : State} {w : Worker} {e : Event}

theorem Active.inside (h : Active st r p) : Inside st r p :=
  ⟨h.routine, fun _ hk => Option.some.inj (hk.symm.trans h.own)⟩

theorem Active.ends (h : Active st r p) (hw : (st.service.conn p).write = []) :
    Ends st r p .finish :=
  fun _ => ⟨hw, .inr h.serve.symm⟩

theorem state_setConn (st : State) (p : ℕ) (c : HttpConnection) :
    (st.setConn p c).service.conn p = c := (setConn_conn ..).trans (if_pos rfl)

theorem Active.setConn {c : HttpConnection} (h : Active st r p)
    (hc : SameSocket (st.service.conn p) c) : Active (st.setConn p c) r p := by
  have hconn := state_setConn st p c
  refine ⟨h.routine, ?_, ?_, ?_⟩
  · rw [hconn, hc.valid]
    exact h.valid
  · rw [hconn, hc.routine]
    exact h.own
  · rw [hconn, hc.id]
    exact h.serve

theorem Behind.setConn {c : HttpConnection} {k : Point} (h : Behind st r p k)
    (hid : c.id = (st.service.conn p).id)
    (hw : k = .reading → c.write = (st.service.conn p).write) : Behind (st.setConn p c) r p k := by
  have hconn := state_setConn st p c
  refine ⟨fun hk => ?_, fun hk => ?_⟩
  · rw [hconn, hid]
    exact h.inner hk
  · rw [hconn, hw hk]
    exact h.write hk

/-- What a step leads to if no exception leaves the worker. -/
structure Leads (p : ℕ) (st : State) (res : Stepped) : Prop where
  beside : Beside p st res.1
  ok : res.2.2 = false → res.2.1.OkAt res.1 p res.2.1.pc

theorem Beside.leads {res : Stepped} (h : Beside p st st') (h' : Leads p st' res) :
    Leads p st res :=
  ⟨h.trans h'.beside, h'.ok⟩

theorem throw_leads (h : At st w.routine p) (err : Failure) : Leads p st (w.throw st err) :=
  ⟨beside_stop h _, fun h => by cases h⟩

theorem readEnd_leads (h : Active st w.routine p) (hb : Behind st w.routine p .reading)
    (next : Next) : Leads p st (w.readEnd st next) := by
  cases next with
  | thrown err => exact throw_leads h.routine _
  | undefined => exact ⟨.refl p st, fun h => by cases h⟩
  | close k => exact ⟨.refl p st, fun _ => ⟨h.inside, by simp⟩⟩
  | rearm => exact ⟨.refl p st, fun _ => ⟨h, hb⟩⟩
  | finish => exact ⟨.refl p st, fun _ => ⟨h.inside, h.ends (hb.write rfl)⟩⟩

theorem read_leads (hp : w.place = p) (h : Active st w.routine p)
    (hb : Behind st w.routine p .reading) : Leads p st (w.readStep x st) := by
  have hsame := tryReadRequest_same (st.service.conn p) x.reads
  have hout := tryReadRequest_output x.reads h.valid
  have hset : ∀ c, SameSocket (st.service.conn p) c → Beside p st (st.setConn p c) := fun c hc =>
    beside_setConn fun k hk => hc.routine ▸ hk
  unfold Worker.readStep
  rw [hp]
  dsimp only
  rw [if_pos (hb.inner (by simp)).symm]
  split <;> rename_i hread <;> rw [hread] at hsame hout
  · exact (hset _ hsame).leads (readEnd_leads (h.setConn hsame)
      (hb.setConn hsame.id fun _ => hout.write) _)
  · exact (hset _ hsame).leads (readEnd_leads (h.setConn hsame)
      (hb.setConn hsame.id fun _ => hout.write) _)
  · have hanswer : SameSocket (st.service.conn p) (answer _ x.reply) :=
      hsame.trans ⟨rfl, rfl, rfl, rfl⟩
    exact ⟨hset _ hanswer, fun _ => ⟨h.setConn hanswer, ⟨fun hk => absurd rfl hk, by simp⟩⟩⟩

theorem tryWriteResponce_empty (writes : List WriteResult) {c c' : HttpConnection}
    (h : tryWriteResponce c writes = (c', .inr true)) : c'.write = [] := by
  induction writes generalizing c with
  | nil =>
    obtain ⟨-, h⟩ := Prod.mk.inj h
    unfold writeFailed at h
    split at h <;> cases h
  | cons r writes ih =>
    unfold tryWriteResponce at h
    split at h
    · split at h
      · rename_i hw
        obtain ⟨rfl, -⟩ := Prod.mk.inj h
        exact hw
      · exact ih h
    · obtain ⟨-, h⟩ := Prod.mk.inj h
      unfold writeFailed at h
      split at h <;> cases h

theorem write_leads (hp : w.place = p) (h : Active st w.routine p)
    (hb : Behind st w.routine p .writing) : Leads p st (w.writeStep x st) := by
  have hsame := tryWriteResponce_same x.writes (st.service.conn p)
  have hset : ∀ c, SameSocket (st.service.conn p) c → Beside p st (st.setConn p c) := fun c hc =>
    beside_setConn fun k hk => hc.routine ▸ hk
  unfold Worker.writeStep
  rw [hp]
  dsimp only
  rw [if_pos (hb.inner (by simp)).symm]
  split <;> rename_i hwrite <;> rw [hwrite] at hsame
  · have hempty := tryWriteResponce_empty x.writes hwrite
    refine ⟨hset _ hsame, fun _ => ⟨(h.setConn hsame).inside, (h.setConn hsame).ends ?_⟩⟩
    rwa [state_setConn]
  · split
    · rename_i hempty
      refine ⟨hset _ hsame, fun _ => ⟨(h.setConn hsame).inside, (h.setConn hsame).ends ?_⟩⟩
      rwa [state_setConn]
    · exact ⟨hset _ hsame, fun _ => ⟨h.setConn hsame, hb.setConn hsame.id (by simp)⟩⟩
  · exact (hset _ hsame).leads (throw_leads (h.setConn hsame).routine _)
  · exact ⟨hset _ hsame, fun _ => ⟨(h.setConn hsame).inside, by simp⟩⟩

theorem setFrame_self (st : State) (r : ℕ) (fr : Frame) : (st.setFrame r fr).frame r = fr :=
  Function.update_self ..

theorem start_leads (hp : w.place = p) (h : Active st w.routine p)
    (hw : (st.service.conn p).write = []) : Leads p st (w.startStep x st) := by
  have hconn := (reset_conn st.service p p x.stray).trans (if_pos rfl)
  have hbeside : Beside p st { st with service := st.service.resetLastActivityTime p x.stray } := by
    refine beside_service (fun q hq => (reset_conn ..).trans (if_neg hq)) fun r hr => ?_
    rwa [hconn] at hr
  unfold Worker.startStep
  rw [hp]
  refine ⟨hbeside.trans (beside_setFrame (hbeside.stays _ _ h.routine) _),
    fun _ => ⟨⟨h.routine, ?_, ?_, ?_⟩, ?_, ?_⟩⟩
  · rw [State.setFrame, hconn]
    exact h.valid
  · rw [State.setFrame, hconn]
    exact h.own
  · rw [setFrame_self]
    refine h.serve.trans ?_
    rw [State.setFrame, hconn]
  · intro _
    rw [setFrame_self, State.setFrame, hconn]
  · intro _
    rw [State.setFrame, hconn]
    exact hw

/-- What `resume` notes before it switches. -/
theorem resumed_keeps (hat : At st r p) (i : ℕ) :
    let st' := (st.setCurrent i (some r)).setFrame r { st.frame r with ucLink := i }
    Beside p st st' ∧ (st'.frame r).serve = (st.frame r).serve ∧
      (st'.frame r).inner = (st.frame r).inner := by
  have hcurrent : Beside p st (st.setCurrent i (some r)) := beside_setCurrent i (some r)
  refine ⟨hcurrent.trans (beside_setFrame (hcurrent.stays r p hat) _), ?_, ?_⟩ <;>
    rw [setFrame_self]

theorem resume_leads {i : ℕ} (hv : (st.service.conn p).valid = true)
    (hr : (st.service.conn p).routine = some w.routine) (hres : Resumable st p w.routine)
    (hm : ∀ routine ∈ st.main.routines, routine.finished = false) :
    Leads p st (w.resumeStep i st) := by
  obtain ⟨routine, hget, rfl, hctx⟩ := hres
  have hat : At st w.routine routine.func := ⟨routine, hget, rfl⟩
  have hfin := hm routine (List.mem_of_getElem? hget)
  obtain ⟨hbeside, hserve, hinner⟩ := resumed_keeps hat i
  have hat' := hbeside.stays _ _ hat
  unfold Worker.resumeStep
  rw [hget]
  dsimp only
  rw [if_neg (by simp [hfin])]
  split <;> rename_i hc <;> rw [hc] at hctx
  · refine ⟨hbeside.trans (beside_setFrame hat' _), fun _ => ⟨⟨hat, hv, hr, ?_⟩, hctx⟩⟩
    rw [setFrame_self]
    rfl
  · exact ⟨hbeside, fun _ => ⟨⟨hat, hv, hr, hserve.trans hctx.1⟩,
      fun hk => hinner.trans (hctx.2.inner hk), hctx.2.write⟩⟩
  · refine ⟨hbeside.trans (beside_setFrame hat' _),
      fun _ => ⟨⟨hat, hv, hr, ?_⟩, ⟨fun _ => ?_, by simp⟩⟩⟩
    · rw [setFrame_self]
      exact hctx.1
    · rw [setFrame_self]
      rfl
  · exact ⟨hbeside, fun _ => ⟨⟨hat, hv, hr, hserve.trans hctx.1⟩,
      fun hk => hinner.trans (hctx.2.inner hk), hctx.2.write⟩⟩
  · exact hctx.elim

theorem enter_leads {i : ℕ} (hv : (st.service.conn e.place).valid = true)
    (hid : (st.service.conn e.place).id = w.pConn) (hrest : Rests st e.place)
    (hq : st.main.finished = []) :
    Leads e.place st ((w.enterStep i x st e).1, (w.enterStep i x st e).2, false) := by
  unfold Worker.enterStep
  simp only [hid, if_true, create_eq hq]
  split
  · rename_i r hr
    exact ⟨.refl _ st, fun _ => ⟨hv, hr, hrest.waits r hr⟩⟩
  · rename_i hr
    have hconn := state_setConn (st.grown e.place (st.linked i st.main.routines.length)) e.place
      { st.service.conn e.place with routine := some st.main.routines.length }
    refine ⟨beside_create _ _ rfl, fun _ => ⟨?_, ?_, .fresh e.place, ?_, rfl, ?_⟩⟩
    · exact (congrArg (fun c : HttpConnection => c.valid) hconn).trans hv
    · exact congrArg (fun c : HttpConnection => c.routine) hconn
    · simp [State.setConn, State.setFrame]
    · exact (congrArg (fun c : HttpConnection => c.write) hconn).trans (hrest.idle hr)

/-- A call on epoll tells it what the connection's option is. -/
theorem mod_conn {m : Mod} {s : Service}
    (hs : st.service.epollMod p (m.apply (st.service.conn p)) = some s) :
    SameSocket (st.service.conn p) { s.conn p with watch := (st.service.conn p).watch } ∧
      (s.conn p).write = (st.service.conn p).write ∧
      ∀ q, q ≠ p → s.conn q = st.service.conn q := by
  unfold Service.epollMod at hs
  split at hs
  · cases hs
  · cases hs
    rw [setConn_conn, if_pos rfl]
    refine ⟨?_, ?_, fun q hq => (setConn_conn ..).trans (if_neg hq)⟩
    · cases m <;> exact ⟨rfl, rfl, rfl, rfl⟩
    · cases m <;> rfl

/-- The worker gives the routine up behind the `yield` at `k`. -/
theorem stop_leads {k : Point} (h : Active st w.routine p) (hb : Behind st w.routine p k) :
    Leads p st (st.stop w.routine (.yield k), { w with pc := .leaving }, false) := by
  refine ⟨beside_stop h.routine _, fun _ _ => ⟨fun hr => ?_, fun r hr => ?_⟩⟩
  · rw [stop_service, h.own] at hr
    cases hr
  · rw [stop_service, h.own] at hr
    obtain rfl := Option.some.inj hr
    obtain ⟨routine, hget, rfl⟩ := h.routine
    have hlen := (List.getElem?_eq_some_iff.mp hget).1
    refine ⟨routine.stop (.yield k), ?_, rfl, ?_⟩
    · dsimp only
      rw [stop_eq hget]
      exact (getElem?_update hlen _).trans (if_pos rfl)
    · dsimp only [Routine.stop]
      rw [stop_eq hget]
      exact ⟨h.serve, hb.inner, hb.write⟩

/-- The worker's place in the calls on epoll does not matter for what is to hold there. -/
theorem mod_leads {i : ℕ} {ms : List Mod} {k : Then} (hp : w.place = p)
    (h : w.OkAt st p (.modding ms k)) :
    Leads p st (w.modStep i st ms k) := by
  have hat : At st w.routine p := by
    cases k with
    | yield k => exact h.1.routine
    | finish | ret => exact h.1.routine
  unfold Worker.modStep
  split
  · rename_i m ms
    rw [hp]
    split
    · rename_i s hs
      obtain ⟨hsame, hw, hne⟩ := mod_conn hs
      have hset : Beside p st { st with service := s } :=
        beside_service hne fun r hr => hsame.routine ▸ hr
      refine ⟨hset, fun _ => ?_⟩
      have hid : (s.conn p).id = (st.service.conn p).id := hsame.id
      have hvalid : (s.conn p).valid = (st.service.conn p).valid := hsame.valid
      have hroutine : (s.conn p).routine = (st.service.conn p).routine := hsame.routine
      cases k with
      | yield k =>
        exact ⟨⟨hat, hvalid.trans h.1.valid, hroutine.trans h.1.own, h.1.serve.trans hid.symm⟩,
          fun hk => (h.2.inner hk).trans hid.symm, fun hk => hw.trans (h.2.write hk)⟩
      | finish =>
        refine ⟨⟨hat, fun k hk => h.1.only k (hroutine.symm.trans hk)⟩, fun hv => ?_⟩
        rw [show State.service _ = _ from rfl, hw, hroutine, hid]
        exact h.2 (hvalid.symm.trans hv)
      | ret =>
        refine ⟨⟨hat, fun k hk => h.1.only k (hroutine.symm.trans hk)⟩, fun hv => ?_⟩
        rw [show State.service _ = _ from rfl, hw, hroutine]
        exact h.2 (hvalid.symm.trans hv)
    · exact throw_leads hat _
  · cases k with
    | finish => exact ⟨.refl p st, fun _ => h⟩
    | yield k =>
      dsimp only
      unfold Worker.yieldStep
      split
      · exact (beside_setCurrent i none).leads (stop_leads
          ⟨hat, h.1.valid, h.1.own, h.1.serve⟩ ⟨h.2.inner, h.2.write⟩)
      · exact ⟨.refl p st, fun h => by cases h⟩
    | ret =>
      refine ⟨beside_stop hat _, fun _ hv => ?_⟩
      dsimp only at hv
      rw [stop_service] at hv
      obtain ⟨hw, hr⟩ := h.2 hv
      refine ⟨fun _ => ?_, fun r hr' => ?_⟩
      · rw [stop_service]
        exact hw
      · rw [stop_service, hr] at hr'
        cases hr'

theorem finish_leads (hp : w.place = p) (h : Inside st w.routine p)
    (hend : Ends st w.routine p .finish) : Leads p st (w.finishStep x st) := by
  unfold Worker.finishStep
  split
  · exact ⟨.refl p st, fun _ => ⟨h, by simp⟩⟩
  · unfold Worker.dropRoutine
    rw [hp]
    split
    · have hconn := state_setConn st p { st.service.conn p with routine := none }
      refine ⟨beside_setConn ?_, fun _ => ⟨⟨h.routine, fun k hk => ?_⟩, ?_⟩⟩
      · intro k hk
        cases hk
      · rw [hconn] at hk
        cases hk
      · intro hv
        rw [hconn] at hv ⊢
        exact ⟨(hend hv).1, rfl⟩
    · rename_i hid
      refine ⟨.refl p st, fun _ => ⟨h, fun hv => ⟨(hend hv).1, ?_⟩⟩⟩
      exact (hend hv).2.resolve_right hid

/-- Outside its loop a worker that has a place in hand steps as said. -/
theorem Worker.step_leads {i : ℕ} {es : List Event} {w' : Worker} {out : Bool}
    (h : w.step i x st = some (st', w', out)) (he : w.events = e :: es)
    (hpc : w.pc ≠ .waiting ∧ w.pc ≠ .looping ∧ w.pc ≠ .leaving) (hp : w.Placed st.service)
    (hok : w.OkAt st e.place w.pc) (hq : st.main.finished = [])
    (hm : ∀ routine ∈ st.main.routines, routine.finished = false) :
    Leads e.place st (st', w', out) := by
  obtain ⟨pc, events, pConn, routine, place⟩ := w
  obtain rfl : events = e :: es := he
  cases pc with
  | waiting => exact absurd rfl hpc.1
  | looping => exact absurd rfl hpc.2.1
  | leaving => exact absurd rfl hpc.2.2
  | entered =>
    have hstep := enter_leads (i := i) (x := x) hok.1 hok.2.1 hok.2.2 hq
    rwa [show (_, _, _) = _ from Option.some.inj h] at hstep
  | resuming =>
    have hstep := resume_leads (i := i) hok.1 hok.2.1 hok.2.2 hm
    rwa [show Worker.resumeStep _ _ _ = _ from Option.some.inj h] at hstep
  | starting =>
    have hstep := start_leads (x := x) hp hok.1 hok.2
    rwa [show Worker.startStep _ _ _ = _ from Option.some.inj h] at hstep
  | reading =>
    have hstep := read_leads (x := x) hp hok.1 hok.2
    rwa [show Worker.readStep _ _ _ = _ from Option.some.inj h] at hstep
  | writing =>
    have hstep := write_leads (x := x) hp hok.1 hok.2
    rwa [show Worker.writeStep _ _ _ = _ from Option.some.inj h] at hstep
  | modding ms k =>
    have hstep := mod_leads (i := i) hp hok
    rwa [show Worker.modStep _ _ _ _ _ = _ from Option.some.inj h] at hstep
  | finishing =>
    have hstep := finish_leads (x := x) hp hok.1 hok.2
    rwa [show Worker.finishStep _ _ _ = _ from Option.some.inj h] at hstep
  | checking k =>
    obtain rfl : place = e.place := hp
    simp only [Worker.step] at h
    split at h <;> rename_i hv <;> cases h
    · exact ⟨.refl _ st, fun _ => hok⟩
    · refine ⟨.refl _ st, fun _ => ?_⟩
      cases k with
      | yield k => exact absurd rfl (hok.2 k)
      | finish | ret => exact ⟨hok.1, fun hv' => absurd hv' hv⟩
  | pushing c k =>
    simp only [Worker.step] at h
    split at h <;> cases h
    exact ⟨beside_service (fun _ _ => rfl) fun _ hr => hr,
      fun _ => ⟨⟨hok.1.routine, hok.1.only⟩, hok.2⟩⟩
  | shutting c k =>
    obtain ⟨hplace, hid⟩ : place = e.place ∧ (st.service.conn e.place).id = c := hp
    subst hplace
    simp only [Worker.step, hid, if_true] at h
    cases h
    have hconn := state_setConn st e.place (st.service.conn e.place).close
    refine ⟨beside_service (fun q hq => (setConn_conn ..).trans (if_neg hq)) fun r hr => ?_,
      fun _ => ?_⟩
    · exact (congrArg (fun c : HttpConnection => c.routine) hconn).symm.trans hr
    · have hin : Inside { st with service := { st.service.setConn e.place
          (st.service.conn e.place).close with closingMutex := none } } routine e.place :=
        ⟨hok.1.routine, fun k hk => hok.1.only k
          ((congrArg (fun c : HttpConnection => c.routine) hconn).symm.trans hk)⟩
      have hshut : ((st.setConn e.place (st.service.conn e.place).close).service.conn
          e.place).valid = false := by
        rw [hconn]
        rfl
      cases k with
      | yield k => exact absurd rfl (hok.2 k)
      | finish | ret => exact ⟨hin, fun hv => absurd (hshut.symm.trans hv) (by simp)⟩
  | astray c => exact hok.elim

end Steps

end Sphere.Cor
