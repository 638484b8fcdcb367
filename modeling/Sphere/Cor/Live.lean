import Sphere.Cor.Resting

/-! The whole service while its workers take up only events of open connections: no
thread disturbs a routine at rest or one that another worker runs. -/

namespace Sphere.Cor

open Lib Net Http SlotPool

/-! What other threads leave of a place. -/

/-- The place's connection and routines are, as far as it matters, the same. -/
structure Untouched (q : ℕ) (st st' : State) : Prop where
  id : (st'.service.conn q).id = (st.service.conn q).id
  valid : (st'.service.conn q).valid = (st.service.conn q).valid
  own : (st'.service.conn q).routine = (st.service.conn q).routine
  write : (st'.service.conn q).write = (st.service.conn q).write
  routine : ∀ (r : ℕ) (routine : Routine ℕ Point Failure), st.main.routines[r]? = some routine →
    routine.func = q → st'.main.routines[r]? = some routine
  frame : ∀ r, At st r q → st'.frame r = st.frame r

section Untouched

variable {q r : ℕ} {st st' : State} {w : Worker}

theorem Beside.untouched {p : ℕ} (h : Beside p st st') (hq : q ≠ p) : Untouched q st st' := by
  have hconn := h.conn q hq
  refine ⟨by rw [hconn], by rw [hconn], by rw [hconn], by rw [hconn], ?_,
    fun r hr => h.frame r q hr hq⟩
  rintro r routine hr rfl
  exact h.routine r routine hr hq

theorem At.untouched (h : At st r q) (hu : Untouched q st st') : At st' r q := by
  obtain ⟨routine, hr, hfunc⟩ := h
  exact ⟨routine, hu.routine r routine hr hfunc, hfunc⟩

theorem Behind.untouched {k : Point} (h : Behind st r q k) (hr : At st r q)
    (hu : Untouched q st st') : Behind st' r q k := by
  refine ⟨fun hk => ?_, fun hk => hu.write.trans (h.write hk)⟩
  rw [hu.frame r hr, hu.id]
  exact h.inner hk

theorem Resumable.untouched (h : Resumable st q r) (hu : Untouched q st st') :
    Resumable st' q r := by
  obtain ⟨routine, hr, hfunc, hctx⟩ := h
  refine ⟨routine, hu.routine r routine hr hfunc, hfunc, ?_⟩
  have hat : At st r q := ⟨routine, hr, hfunc⟩
  cases hc : routine.ctx <;> rw [hc] at hctx
  · exact hu.write.trans hctx
  · refine ⟨?_, hctx.2.untouched hat hu⟩
    rw [hu.frame r hat, hu.id]
    exact hctx.1
  · exact hctx

theorem Rests.untouched (h : Rests st q) (hu : Untouched q st st') : Rests st' q :=
  ⟨fun hr => hu.write.trans (h.idle (hu.own.symm.trans hr)),
    fun r hr => (h.waits r (hu.own.symm.trans hr)).untouched hu⟩

theorem Inside.untouched (h : Inside st r q) (hu : Untouched q st st') : Inside st' r q :=
  ⟨h.routine.untouched hu, fun k hk => h.only k (hu.own.symm.trans hk)⟩

theorem Active.untouched (h : Active st r q) (hu : Untouched q st st') : Active st' r q := by
  refine ⟨h.routine.untouched hu, hu.valid.trans h.valid, hu.own.trans h.own, ?_⟩
  rw [hu.frame r h.routine, hu.id]
  exact h.serve

theorem Ends.untouched {k : Then} (h : Ends st r q k) (hr : At st r q) (hu : Untouched q st st') :
    Ends st' r q k := by
  cases k with
  | yield k => exact h
  | finish =>
    intro hv
    rw [hu.write, hu.own, hu.id, hu.frame r hr]
    exact h (hu.valid.symm.trans hv)
  | ret =>
    intro hv
    rw [hu.write, hu.own]
    exact h (hu.valid.symm.trans hv)

theorem Worker.OkAt.untouched {pc : Pc} (h : w.OkAt st q pc) (hu : Untouched q st st') :
    w.OkAt st' q pc := by
  cases pc with
  | waiting | looping => trivial
  | entered =>
    exact ⟨hu.valid.trans h.1, hu.id.trans h.2.1, h.2.2.untouched hu⟩
  | resuming => exact ⟨hu.valid.trans h.1, hu.own.trans h.2.1, h.2.2.untouched hu⟩
  | starting => exact ⟨h.1.untouched hu, hu.write.trans h.2⟩
  | reading | writing => exact ⟨h.1.untouched hu, h.2.untouched h.1.routine hu⟩
  | modding ms k =>
    cases k with
    | yield k => exact ⟨h.1.untouched hu, h.2.untouched h.1.routine hu⟩
    | finish | ret => exact ⟨h.1.untouched hu, h.2.untouched h.1.routine hu⟩
  | finishing => exact ⟨h.1.untouched hu, h.2.untouched h.1.routine hu⟩
  | checking k | pushing c k | shutting c k => exact ⟨h.1.untouched hu, h.2⟩
  | leaving => exact fun hv => (h (hu.valid.symm.trans hv)).untouched hu
  | astray c => exact h.elim

/-- A place that was closed has got a new connection. -/
structure Renewed (q : ℕ) (st st' : State) : Prop where
  shut : (st.service.conn q).valid = false
  fresh : ∃ id now, st'.service.conn q = HttpConnection.make id now
  main : st'.main = st.main

theorem Renewed.rests (h : Renewed q st st') : Rests st' q := by
  obtain ⟨id, now, hc⟩ := h.fresh
  refine ⟨fun _ => by rw [hc]; rfl, fun r hr => ?_⟩
  rw [hc] at hr
  cases hr

theorem Renewed.inside (h : Renewed q st st') (hr : Inside st r q) : Inside st' r q := by
  obtain ⟨id, now, hc⟩ := h.fresh
  refine ⟨?_, fun k hk => ?_⟩
  · unfold At
    rw [h.main]
    exact hr.routine
  · rw [hc] at hk
    cases hk

theorem Renewed.ends {k : Then} (h : Renewed q st st') (hk : Ends st r q k) : Ends st' r q k := by
  obtain ⟨id, now, hc⟩ := h.fresh
  cases k with
  | yield k => exact hk
  | finish => exact fun _ => ⟨by rw [hc]; rfl, .inl (by rw [hc]; rfl)⟩
  | ret => exact fun _ => ⟨by rw [hc]; rfl, by rw [hc]; rfl⟩

/-- Only a worker that is done with the old connection can be there. -/
theorem Worker.OkAt.renewed {pc : Pc} (h : w.OkAt st q pc) (hn : Renewed q st st') :
    w.OkAt st' q pc := by
  have hshut : ∀ {P : Prop}, (st.service.conn q).valid = true → P := fun hv =>
    absurd (hn.shut.symm.trans hv) (by simp)
  cases pc with
  | waiting | looping => trivial
  | entered | resuming => exact hshut h.1
  | starting | reading | writing => exact hshut h.1.valid
  | modding ms k =>
    cases k with
    | yield k => exact hshut h.1.valid
    | finish | ret => exact ⟨hn.inside h.1, hn.ends h.2⟩
  | finishing => exact ⟨hn.inside h.1, hn.ends h.2⟩
  | checking k | pushing c k | shutting c k => exact ⟨hn.inside h.1, h.2⟩
  | leaving => exact fun _ => hn.rests
  | astray c => exact h.elim

end Untouched

/-! The whole service. -/

/-- No worker takes up an event of a place whose connection is closed. -/
def TakesOpen (σ : System) : Act → Prop
  | .worker i _ => (σ.worker i).pc = .looping →
      ∀ e ∈ (σ.worker i).events.head?, (σ.state.service.conn e.place).valid = true
  | _ => True

instance (σ : System) (a : Act) : Decidable (TakesOpen σ a) :=
  match a with
  | .worker _ _ => inferInstanceAs (Decidable (_ → _))
  | .acceptor _ | .clock _ | .raise _ _ | .stray _ => .isTrue trivial

structure System.Live (σ : System) : Prop where
  closes : σ.Closes
  queue : σ.state.main.finished = []
  unmarked : ∀ routine ∈ σ.state.main.routines, routine.finished = false
  home : ∀ p r, (σ.state.service.conn p).routine = some r → At σ.state r p
  ok : ∀ i, (σ.worker i).Ok σ.state
  rests : ∀ p, (∀ i, (σ.worker i).stage.slot ≠ some p) →
    (σ.state.service.conn p).valid = true → Rests σ.state p

theorem Worker.slot_eq {w : Worker} (h : w.stage ≠ .idle) :
    ∃ e es, w.events = e :: es ∧ w.stage.slot = some e.place := by
  obtain ⟨pc, events, pConn, routine, place⟩ := w
  cases events with
  | nil => cases pc <;> exact absurd rfl h
  | cons e es => cases pc <;> first | exact absurd rfl h | exact ⟨e, es, rfl, rfl⟩

theorem Worker.ok_of_idle {st : State} {w : Worker} (h : w.stage = .idle) : w.Ok st := by
  obtain ⟨pc, events, pConn, routine, place⟩ := w
  cases events with
  | nil => trivial
  | cons e es => cases pc <;> trivial

/-- No worker is where it would go on in the context of another one. -/
theorem System.Live.not_astray {σ : System} (h : σ.Live) {i c : ℕ} {e : Event} {es : List Event}
    (hpc : (σ.worker i).pc = .astray c) (he : (σ.worker i).events = e :: es) : False := by
  have hok := h.ok i
  unfold Worker.Ok at hok
  rwa [he, hpc] at hok

/-- The worker takes up no routine of another place. -/
theorem System.Live.resumesOwn {σ σ' : System} (h : σ.Live) {a : Act} (hstep : σ.step a = some σ') :
    ResumesOwn σ a := by
  cases System.step_acts hstep with
  | @worker i =>
    have hok := h.ok i
    unfold Worker.Ok at hok
    show (σ.worker i).resumesOwn σ.state = true
    unfold Worker.resumesOwn
    split
    · rename_i e es routine hpc he hr
      rw [he, hpc] at hok
      obtain ⟨-, -, routine', hget, hfunc, -⟩ := hok
      obtain rfl := Option.some.inj (hr.symm.trans hget)
      simp [hfunc]
    · rfl
  | @taken i x htaken hpc =>
    show (σ.worker i).resumesOwn σ.state = true
    simp [Worker.resumesOwn, hpc]
  | stray hpc he => exact (h.not_astray hpc he).elim
  | _ => trivial

/-- Two workers have different places in hand. -/
theorem System.Live.slot_ne {σ : System} (h : σ.Live) {i j : ℕ} (hij : j ≠ i) {p q : ℕ}
    (hi : (σ.worker i).stage.slot = some p) (hj : (σ.worker j).stage.slot = some q) : q ≠ p := by
  rintro rfl
  have hhi := h.closes.pool.holder_of_slot (t := .worker i) hi
  have hhj := h.closes.pool.holder_of_slot (t := .worker j) hj
  have heq := Option.some.inj (hhi.symm.trans hhj)
  cases heq
  exact hij rfl

/-- What holds of the other workers and places after a step that leaves them alone. -/
theorem System.Live.others {σ : System} (h : σ.Live) {st' : State} {i p : ℕ}
    (hi : (σ.worker i).stage.slot = some p) (hb : Beside p σ.state st') {j : ℕ} (hj : j ≠ i) :
    (σ.worker j).Ok st' := by
  by_cases hidle : (σ.worker j).stage = .idle
  · exact Worker.ok_of_idle hidle
  · obtain ⟨e, es, he, hslot⟩ := Worker.slot_eq hidle
    have hok := h.ok j
    unfold Worker.Ok at hok ⊢
    rw [he] at hok ⊢
    exact hok.untouched (hb.untouched (h.slot_ne hj hi hslot))

theorem beside_home {σ : System} {st' : State} {p : ℕ} (hb : Beside p σ.state st')
    (h : ∀ p r, (σ.state.service.conn p).routine = some r → At σ.state r p) (q r : ℕ)
    (hr : (st'.service.conn q).routine = some r) : At st' r q := by
  by_cases hq : q = p
  · subst hq
    rcases hb.home r hr with hold | hnew
    · exact hb.stays r q (h q r hold)
    · exact hnew
  · rw [hb.conn q hq] at hr
    exact hb.stays r q (h q r hr)

/-- A step of a worker on a place it keeps in hand. -/
theorem System.Live.keepsPlace {σ : System} (h : σ.Live) {i : ℕ} {st' : State} {w' : Worker}
    {p : ℕ} {b : Bool} (hi : (σ.worker i).stage.slot = some p)
    (hl : Leads p σ.state (st', w', false)) (hw : w'.stage.slot = some p)
    (hc : System.Closes
      { σ with state := st', worker := Function.update σ.worker i w', halted := b }) :
    System.Live { σ with state := st', worker := Function.update σ.worker i w', halted := b } := by
  obtain ⟨e, es, he, hslot⟩ := Worker.slot_eq (w := w') fun hidle => by rw [hidle] at hw; cases hw
  obtain rfl : e.place = p := Option.some.inj (hslot.symm.trans hw)
  refine ⟨hc, hl.beside.queue.trans h.queue, hl.beside.unmarked h.unmarked,
    fun q r hr => beside_home hl.beside h.home q r hr, fun j => ?_, fun q hq hv => ?_⟩
  · show Worker.Ok st' (Function.update σ.worker i w' j)
    by_cases hj : j = i
    · rw [hj, Function.update_self]
      unfold Worker.Ok
      rw [he]
      exact hl.ok rfl
    · rw [Function.update_of_ne hj]
      exact h.others hi hl.beside hj
  · replace hq : ∀ j, (Function.update σ.worker i w' j).stage.slot ≠ some q := hq
    have hne : q ≠ e.place := by
      rintro rfl
      exact hq i (by rw [Function.update_self]; exact hslot)
    replace hv : (σ.state.service.conn q).valid = true := by
      rw [← hl.beside.conn q hne]
      exact hv
    refine (h.rests q (fun j => ?_) hv).untouched (hl.beside.untouched hne)
    by_cases hj : j = i
    · rw [hj, hi]
      exact fun heq => hne (Option.some.inj heq).symm
    · have hqj := hq j
      rwa [Function.update_of_ne hj] at hqj

theorem untouched_service {st : State} {s : Service} {q : ℕ}
    (h : SameSocket (st.service.conn q) { s.conn q with watch := (st.service.conn q).watch })
    (hw : (s.conn q).write = (st.service.conn q).write) :
    Untouched q st { st with service := s } :=
  ⟨h.id, h.valid, h.routine, hw, fun _ _ hr _ => hr, fun _ _ => rfl⟩

theorem Worker.Ok.untouched {st st' : State} {w : Worker} (h : w.Ok st)
    (hu : ∀ q, Untouched q st st') : w.Ok st' := by
  unfold Worker.Ok at h ⊢
  split
  · trivial
  · rename_i e es he
    rw [he] at h
    exact OkAt.untouched h (hu e.place)

/-- A worker changes its stage and nothing else that matters. -/
theorem System.Live.moves {σ : System} (h : σ.Live) {i : ℕ} {s : Service} {w' : Worker} {b : Bool}
    (hu : ∀ q, Untouched q σ.state { σ.state with service := s })
    (hok : w'.Ok { σ.state with service := s })
    (hrest : ∀ q, (σ.worker i).stage.slot = some q → w'.stage.slot ≠ some q →
      (σ.state.service.conn q).valid = true → Rests σ.state q)
    (hc : System.Closes
      { σ.setService s with worker := Function.update σ.worker i w', halted := b }) :
    System.Live { σ.setService s with worker := Function.update σ.worker i w', halted := b } := by
  refine ⟨hc, h.queue, h.unmarked, fun q r hr => ?_, fun j => ?_, fun q hq hv => ?_⟩
  · exact (h.home q r ((hu q).own.symm.trans hr)).untouched (hu q)
  · show Worker.Ok _ (Function.update σ.worker i w' j)
    by_cases hj : j = i
    · rw [hj, Function.update_self]
      exact hok
    · rw [Function.update_of_ne hj]
      exact (h.ok j).untouched hu
  · replace hq : ∀ j, (Function.update σ.worker i w' j).stage.slot ≠ some q := hq
    replace hv : (σ.state.service.conn q).valid = true := (hu q).valid.symm.trans hv
    have hwq : w'.stage.slot ≠ some q := by simpa using hq i
    by_cases hslot : (σ.worker i).stage.slot = some q
    · exact (hrest q hslot hwq hv).untouched (hu q)
    · refine (h.rests q (fun j => ?_) hv).untouched (hu q)
      by_cases hj : j = i
      · rwa [hj]
      · have hqj := hq j
        rwa [Function.update_of_ne hj] at hqj

theorem setMutex_untouched (st : State) (p q : ℕ) (o : Option Thread) :
    Untouched q st { st with service := st.service.setMutex p o } := by
  refine untouched_service ?_ (by rw [setMutex_conn])
  rw [setMutex_conn]
  exact ⟨rfl, rfl, rfl, rfl⟩

theorem Worker.step_nil {i : ℕ} {x : Input} {st st' : State} {w w' : Worker} {out : Bool}
    (h : w.step i x st = some (st', w', out)) (he : w.events = []) :
    st' = st ∧ w'.events = [] := by
  obtain ⟨pc, events, pConn, routine, place⟩ := w
  obtain rfl : events = [] := he
  cases pc <;> cases h <;> exact ⟨rfl, rfl⟩

/-- A worker keeps its place until it leaves. -/
theorem Worker.step_slot {i : ℕ} {x : Input} {st st' : State} {w w' : Worker} {out : Bool}
    {e : Event} {es : List Event} (h : w.step i x st = some (st', w', out))
    (he : w.events = e :: es) (hpc : w.pc ≠ .waiting ∧ w.pc ≠ .looping ∧ w.pc ≠ .leaving) :
    w'.stage.slot = some e.place := by
  have hserves : w.serving → w'.stage.slot = some e.place := fun hs => by
    rw [(Worker.step_serves h he hs).stage]
    rfl
  obtain ⟨pc, events, pConn, routine, place⟩ := w
  obtain rfl : events = e :: es := he
  cases pc with
  | waiting => exact absurd rfl hpc.1
  | looping => exact absurd rfl hpc.2.1
  | leaving => exact absurd rfl hpc.2.2
  | checking k =>
    simp only [Worker.step] at h
    split at h <;> cases h <;> rfl
  | pushing c k =>
    simp only [Worker.step] at h
    split at h <;> cases h
    rfl
  | shutting c k =>
    cases h
    rfl
  | astray c => cases h
  | _ => exact hserves trivial

/-- A worker changes no connection but that of the event it serves. -/
theorem System.Live.keepsConn {σ : System} (h : σ.Live) {i : ℕ} {x : Input} {st' : State}
    {w' : Worker} {out : Bool} {e : Event} {es : List Event}
    (hstep : (σ.worker i).step i x σ.state = some (st', w', out))
    (he : (σ.worker i).events = e :: es) {q : ℕ} (hq : q ≠ e.place) :
    st'.service.conn q = σ.state.service.conn q := by
  have hok := h.ok i
  unfold Worker.Ok at hok
  rw [he] at hok
  cases hpc : (σ.worker i).pc with
  | waiting =>
    unfold Worker.step at hstep
    rw [hpc] at hstep
    cases hstep
    rfl
  | looping =>
    unfold Worker.step at hstep
    rw [hpc, he] at hstep
    obtain ⟨-, hstep⟩ := Option.ite_none_right_eq_some.mp hstep
    cases hstep
    exact setMutex_conn ..
  | leaving =>
    unfold Worker.step at hstep
    rw [hpc, he] at hstep
    cases hstep
    exact setMutex_conn ..
  | _ =>
    have hpcs : (σ.worker i).pc ≠ .waiting ∧ (σ.worker i).pc ≠ .looping ∧
        (σ.worker i).pc ≠ .leaving := by simp [hpc]
    exact (Worker.step_leads hstep he hpcs (h.closes.placed i) hok h.queue h.unmarked).beside.conn
      q hq

theorem System.Live.workerStep {σ : System} (h : σ.Live) {i : ℕ} {x : Input} {st' : State}
    {w' : Worker} (hm : TakesOpen σ (.worker i x))
    (hstep : (σ.worker i).step i x σ.state = some (st', w', false))
    (hc : System.Closes
      { σ with state := st', worker := Function.update σ.worker i w', halted := false }) :
    System.Live
      { σ with state := st', worker := Function.update σ.worker i w', halted := false } := by
  have hok := h.ok i
  have hplaced := h.closes.placed i
  unfold Worker.Ok at hok
  have hsame : ∀ q, Untouched q σ.state { σ.state with service := σ.state.service } := fun q =>
    untouched_service ⟨rfl, rfl, rfl, rfl⟩ rfl
  cases he : (σ.worker i).events with
  | nil =>
    have hidle : (σ.worker i).stage = .idle := by
      cases hpc : (σ.worker i).pc <;> simp [Worker.stage, he, hpc]
    obtain ⟨rfl, hevents⟩ := Worker.step_nil hstep he
    refine h.moves hsame ?_ (fun q hq => by rw [hidle] at hq; cases hq) hc
    unfold Worker.Ok
    rw [hevents]
    trivial
  | cons e es =>
    rw [he] at hok
    by_cases hloop : (σ.worker i).pc = .waiting ∨ (σ.worker i).pc = .looping
    · have hidle : (σ.worker i).stage = .idle := by
        rcases hloop with hpc | hpc <;> simp [Worker.stage, hpc]
      have hnone : ∀ q, (σ.worker i).stage.slot ≠ some q := fun q hq => by
        rw [hidle] at hq
        cases hq
      rcases hloop with hpc | hpc
      · have hnext : st' = σ.state ∧ w' = { σ.worker i with pc := .looping } := by
          unfold Worker.step at hstep
          rw [hpc] at hstep
          cases hstep
          exact ⟨rfl, rfl⟩
        obtain ⟨rfl, rfl⟩ := hnext
        refine h.moves hsame ?_ (fun q hq => absurd hq (hnone q)) hc
        unfold Worker.Ok
        dsimp only
        rw [he]
        trivial
      · unfold Worker.step at hstep
        rw [hpc, he] at hstep
        obtain ⟨hfree, hnext⟩ := Option.ite_none_right_eq_some.mp hstep
        cases hnext
        have hv := hm hpc e (by simp [he])
        have hslot : ∀ j, (σ.worker j).stage.slot ≠ some e.place := fun j hj => by
          have hholder := h.closes.pool.holder_of_slot (t := .worker j) hj
          exact absurd (hfree.symm.trans hholder) (by simp)
        refine h.moves (setMutex_untouched σ.state e.place · _) ?_
          (fun q hq => absurd hq (hnone q)) hc
        unfold Worker.Ok
        dsimp only
        refine ⟨?_, ?_, (h.rests e.place hslot hv).untouched (setMutex_untouched ..)⟩
        · rw [setMutex_conn]
          exact hv
        · rw [setMutex_conn]
    · have hslot : (σ.worker i).stage.slot = some e.place := by
        obtain ⟨e', es', he', hslot⟩ := Worker.slot_eq (w := σ.worker i) fun hidle => by
          cases hpc : (σ.worker i).pc <;> simp [Worker.stage, hpc, he] at hidle hloop
        obtain ⟨rfl, -⟩ := List.cons.inj (he.symm.trans he')
        exact hslot
      by_cases hleave : (σ.worker i).pc = .leaving
      · rw [hleave] at hok
        unfold Worker.step at hstep
        rw [hleave, he] at hstep
        cases hstep
        refine h.moves (setMutex_untouched σ.state e.place · _) ?_ (fun q hq _ => ?_) hc
        · exact Worker.ok_of_idle rfl
        · obtain rfl : e.place = q := Option.some.inj (hslot.symm.trans hq)
          exact hok
      · have hl := Worker.step_leads hstep he
          ⟨fun hpc => hloop (.inl hpc), fun hpc => hloop (.inr hpc), hleave⟩ hplaced hok h.queue
          h.unmarked
        exact h.keepsPlace hslot hl (Worker.step_slot hstep he
          ⟨fun hpc => hloop (.inl hpc), fun hpc => hloop (.inr hpc), hleave⟩) hc

/-- The acceptor leaves a place that matters alone, or puts a new connection there. -/
theorem System.Live.acceptorStep {σ : System} (h : σ.Live) {x : AcceptorInput} {s : Service}
    {a : Acceptor} (hstep : σ.acceptor.step true x σ.state.service = some (s, a))
    (hc : System.Closes { σ.setService s with acceptor := a }) :
    System.Live { σ.setService s with acceptor := a } := by
  have hcarries := Acceptor.step_carries (f := σ.stage) hstep h.closes.pool
  have hcases : ∀ q, (s.conn q).routine = (σ.state.service.conn q).routine ∧
      (s.conn q).id = (σ.state.service.conn q).id ∧
      (s.conn q).write = (σ.state.service.conn q).write ∧
      ((s.conn q).valid = true → (σ.state.service.conn q).valid = true) ∨
      Renewed q σ.state { σ.state with service := s } := by
    intro q
    rcases hcarries q with hk | ⟨-, hshut, id, now, hnew⟩
    · refine .inl ⟨hk.routine, hk.id, hk.write, fun hv => ?_⟩
      by_contra hshut
      exact absurd (hv.symm.trans (hk.valid (by simpa using hshut))) (by simp)
    · exact .inr ⟨hshut, ⟨id, now, hnew⟩, rfl⟩
  have huntouched : ∀ q, (s.conn q).routine = (σ.state.service.conn q).routine →
      (s.conn q).id = (σ.state.service.conn q).id →
      (s.conn q).write = (σ.state.service.conn q).write →
      (s.conn q).valid = (σ.state.service.conn q).valid →
      Untouched q σ.state { σ.state with service := s } := fun q hr hid hw hv =>
    ⟨hid, hv, hr, hw, fun _ _ hr _ => hr, fun _ _ => rfl⟩
  refine ⟨hc, h.queue, h.unmarked, fun q r hr => ?_, fun j => ?_, fun q hq hv => ?_⟩
  · rcases hcases q with ⟨hown, -⟩ | ⟨-, ⟨id, now, hnew⟩, -⟩
    · exact h.home q r (hown.symm.trans hr)
    · replace hr : (s.conn q).routine = some r := hr
      rw [show s.conn q = _ from hnew] at hr
      cases hr
  · by_cases hidle : (σ.worker j).stage = .idle
    · exact Worker.ok_of_idle hidle
    · obtain ⟨e, es, he, hslot⟩ := Worker.slot_eq hidle
      have hok := h.ok j
      show Worker.Ok { σ.state with service := s } (σ.worker j)
      unfold Worker.Ok at hok ⊢
      rw [he] at hok ⊢
      have hholder := h.closes.pool.holder_of_slot (t := .worker j) hslot
      have hacceptor : (σ.acceptor.stage true).slot ≠ some e.place := fun hs => by
        have hother := h.closes.pool.holder_of_slot (t := .acceptor) hs
        exact absurd (hholder.symm.trans hother) (by simp)
      rcases hcases e.place with ⟨hown, hid, hw, hv⟩ | hnew
      · refine Worker.OkAt.untouched hok (huntouched e.place hown hid hw ?_)
        by_cases hvalid : (σ.state.service.conn e.place).valid = true
        · rw [hvalid]
          exact Acceptor.step_valid hstep hvalid hacceptor
        · rw [Bool.eq_iff_iff]
          exact ⟨hv, fun hv => absurd hv hvalid⟩
      · exact Worker.OkAt.renewed hok hnew
  · rcases hcases q with ⟨hown, hid, hw, hvalid⟩ | hnew
    · have hv' : (σ.state.service.conn q).valid = true := hvalid hv
      exact (h.rests q hq hv').untouched (huntouched q hown hid hw (Eq.trans hv hv'.symm))
    · exact hnew.rests

theorem System.Live.step {σ σ' : System} {a : Act} (h : σ.Live) (hm : TakesOpen σ a)
    (hstep : σ.step a = some σ') (hlive : σ'.halted = false) : σ'.Live := by
  have hc := h.closes.step (h.resumesOwn hstep) hstep
  cases System.step_acts hstep with
  | acceptor hs => exact h.acceptorStep hs hc
  | @worker i x st w out hs =>
    obtain rfl : out = false := hlive
    exact h.workerStep hm hs hc
  | taken => cases hlive
  | clock now =>
    have hu : ∀ q, Untouched q σ.state
        { σ.state with service := { σ.state.service with now := now } } := fun q =>
      untouched_service ⟨rfl, rfl, rfl, rfl⟩ rfl
    exact ⟨hc, h.queue, h.unmarked, fun q r hr => (h.home q r hr).untouched (hu q),
      fun j => (h.ok j).untouched hu, fun q hq hv => (h.rests q hq hv).untouched (hu q)⟩
  | @raise i e s hw hs =>
    have hwatch : ∀ q, Untouched q σ.state { σ.state with service := s } := fun q => by
      have hconn := raise_conn hs q
      refine untouched_service ?_ ?_ <;> rw [hconn]
      exact ⟨rfl, rfl, rfl, rfl⟩
    have hidle : (σ.worker i).stage = .idle := by simp [Worker.stage, hw]
    refine h.moves hwatch (Worker.ok_of_idle ?_) (fun q hq => ?_) hc
    · simp [Worker.stage, hw]
    · rw [hidle] at hq
      cases hq
  | stray hpc he => exact (h.not_astray hpc he).elim

theorem System.step_live {σ σ' : System} {a : Act} (h : σ.step a = some σ') : σ.halted = false := by
  obtain ⟨hlive, -⟩ := Option.ite_none_left_eq_some.mp h
  simpa using hlive

theorem System.start_live (connTimeo kaConnTimeo : ℕ) :
    (System.start connTimeo kaConnTimeo).Live := by
  refine ⟨System.start_closes _ _, rfl, ?_, ?_, fun i => trivial, ?_⟩
  · intro routine hr
    cases hr
  · intro p r hr
    cases hr
  · intro p _ hv
    cases hv

end Sphere.Cor
