import Sphere.Cor.Live

/-! Who has a routine. A routine stays with its open connection until `serve_client` comes
to an end; from then on nobody gives it back. -/

namespace Sphere.Cor

open Lib Net Http SlotPool

/-- Every routine waits in the queue or belongs to one open connection, and to no other. -/
structure System.Owned (σ : System) : Prop where
  owner : ∀ r < σ.state.main.routines.length, Xor (r ∈ σ.state.main.finished)
    (∃! p, p < σ.state.service.size ∧ (σ.state.service.conn p).valid = true ∧
      (σ.state.service.conn p).routine = some r)
  alone : ∀ p q r, (σ.state.service.conn p).routine = some r →
    (σ.state.service.conn q).routine = some r → p = q

/-- No worker is serving an event. -/
def System.Between (σ : System) : Prop :=
  ∀ i, (σ.worker i).pc = .waiting ∨ (σ.worker i).pc = .looping

/-- The client that `close_if_timed_out` is closing. -/
def shutByScan : Acceptor → Option ℕ
  | .halfClosed p => some p
  | _ => none

/-- No event of a closed connection is taken up, no `serve_client` returns, and no client
with a routine is timed out. -/
def KeepsRoutines (σ : System) (a : Act) : Prop :=
  TakesOpen σ a ∧
    match a with
    | .worker i _ => (σ.worker i).pc ≠ .modding [] .ret
    | .acceptor _ => ∀ p ∈ shutByScan σ.acceptor, (σ.state.service.conn p).routine = none
    | _ => True

instance (σ : System) (a : Act) : Decidable (KeepsRoutines σ a) :=
  match a with
  | .worker _ _ | .acceptor _ => inferInstanceAs (Decidable (_ ∧ _))
  | .clock _ | .raise _ _ | .stray _ => inferInstanceAs (Decidable (_ ∧ True))

/-- The worker is at the end of the function, behind the last `yield` it can come to. -/
def Worker.Late (w : Worker) : Prop :=
  match w.pc with
  | .modding _ .finish | .modding _ .ret | .finishing | .checking _ | .pushing _ _
  | .shutting _ _ => True
  | _ => False

section Steps

variable {p r : ℕ} {st st' : State} {w w' : Worker}

theorem Worker.Late.inside (h : w.Late) (hok : w.OkAt st p w.pc) : Inside st w.routine p := by
  obtain ⟨pc, events, pConn, routine, place⟩ := w
  cases pc with
  | modding ms k =>
    cases k with
    | yield k => exact absurd h id
    | finish | ret => exact hok.1
  | finishing => exact hok.1
  | checking k | pushing c k | shutting c k => exact hok.1
  | _ => exact absurd h id

/-- Where a routine of the state after a step comes from. -/
def Comes (p : ℕ) (st st' : State) : Prop :=
  ∀ r (routine' : Routine ℕ Point Failure), st'.main.routines[r]? = some routine' →
    (∃ routine, st.main.routines[r]? = some routine ∧ routine.func = routine'.func) ∨
      routine'.func = p ∧ (st'.service.conn p).routine = some r ∧
        (st'.service.conn p).valid = true

theorem comes_of_main (h : st'.main.routines = st.main.routines) : Comes p st st' :=
  fun r routine' hr => .inl ⟨routine', by rw [← h]; exact hr, rfl⟩

theorem comes_stop (hr : At st r p) (out : Stop Point Failure) : Comes p st (st.stop r out) := by
  obtain ⟨routine, hget, rfl⟩ := hr
  rw [stop_eq hget]
  intro k routine' hk
  dsimp only at hk
  rw [getElem?_update (List.getElem?_eq_some_iff.mp hget).1] at hk
  split at hk
  · rename_i hkr
    subst hkr
    cases hk
    exact .inl ⟨routine, hget, (stop_func routine out).1.symm⟩
  · exact .inl ⟨routine', hk, rfl⟩

/-- What a step of a worker on an event of place `p` does to who has the routines. -/
structure Owns (p : ℕ) (st : State) (w : Worker) (res : Stepped) : Prop where
  comes : Comes p st res.1
  keeps : ¬ w.Late → (st.service.conn p).valid = true →
    (∃ r, (st.service.conn p).routine = some r) →
      (res.1.service.conn p).routine = (st.service.conn p).routine ∧
        (res.1.service.conn p).valid = true
  late : w.Late → res.2.1.Late ∧ res.2.1.routine = w.routine

variable {x : Input} {e : Event}

theorem Owns.of_setConn {c : HttpConnection} {res : Stepped}
    (hc : SameSocket (st.service.conn p) c) (h : Owns p (st.setConn p c) w res) :
    Owns p st w res := by
  have hconn := state_setConn st p c
  refine ⟨h.comes, fun hw hv hr => ?_, h.late⟩
  have hkeeps := h.keeps hw
  rw [hconn, hc.valid, hc.routine] at hkeeps
  exact hkeeps hv hr

/-- A step that changes the connection's buffers and options at most. -/
theorem owns_conn {res : Stepped} (hm : res.1.main.routines = st.main.routines)
    (hc : SameSocket (st.service.conn p) { res.1.service.conn p with
      watch := (st.service.conn p).watch }) (hl : ¬ w.Late) : Owns p st w res :=
  ⟨comes_of_main hm, fun _ hv _ => ⟨hc.routine, hc.valid.trans hv⟩, fun h => absurd h hl⟩

theorem At.setConn {q : ℕ} {c : HttpConnection} (h : At st r p) : At (st.setConn q c) r p := h

theorem throw_owns (h : At st w.routine p) (err : Failure) : Owns p st w (w.throw st err) :=
  ⟨comes_stop h _, fun _ hv _ => by simpa [Worker.throw, stop_service] using hv, fun h => ⟨h, rfl⟩⟩

theorem readEnd_owns (h : At st w.routine p) (hl : ¬ w.Late) (next : Next) :
    Owns p st w (w.readEnd st next) := by
  cases next with
  | thrown err => exact throw_owns h _
  | _ => exact owns_conn rfl ⟨rfl, rfl, rfl, rfl⟩ hl

theorem read_owns (hp : w.place = p) (h : At st w.routine p) (hl : ¬ w.Late) :
    Owns p st w (w.readStep x st) := by
  subst hp
  have hsame := tryReadRequest_same (st.service.conn w.place) x.reads
  unfold Worker.readStep
  dsimp only
  split
  · split <;> rename_i hread <;> rw [hread] at hsame
    · exact .of_setConn hsame (readEnd_owns h.setConn hl _)
    · exact .of_setConn hsame (readEnd_owns h.setConn hl _)
    · have hanswer : SameSocket (st.service.conn w.place) (answer _ x.reply) :=
        hsame.trans ⟨rfl, rfl, rfl, rfl⟩
      refine .of_setConn hanswer (owns_conn rfl ⟨rfl, rfl, rfl, rfl⟩ hl)
  · exact readEnd_owns h hl _

theorem write_owns (hp : w.place = p) (h : At st w.routine p) (hl : ¬ w.Late) :
    Owns p st w (w.writeStep x st) := by
  subst hp
  have hsame := tryWriteResponce_same x.writes (st.service.conn w.place)
  have hnext : ∀ (st' : State) (pc : Pc),
      Owns w.place st' w (st', { w with pc }, false) := fun _ _ =>
    owns_conn rfl ⟨rfl, rfl, rfl, rfl⟩ hl
  unfold Worker.writeStep
  dsimp only
  split
  · split <;> rename_i hwrite <;> rw [hwrite] at hsame
    · exact .of_setConn hsame (hnext _ _)
    · split
      · exact .of_setConn hsame (hnext _ _)
      · exact .of_setConn hsame (hnext _ _)
    · exact .of_setConn hsame (throw_owns h.setConn _)
    · exact .of_setConn hsame (hnext _ _)
  · split
    · exact throw_owns h _
    · exact owns_conn rfl ⟨rfl, rfl, rfl, rfl⟩ hl
    · exact hnext _ _
    · exact hnext _ _
    · exact hnext _ _

theorem mod_owns {i : ℕ} {ms : List Mod} {k : Then} (hpc : w.pc = .modding ms k)
    (hp : w.place = p) (h : At st w.routine p) (hne : w.pc ≠ .modding [] .ret) :
    Owns p st w (w.modStep i st ms k) := by
  unfold Worker.modStep
  split
  · rename_i m ms
    rw [hp]
    split
    · rename_i s hs
      obtain ⟨hsame, -, -⟩ := mod_conn hs
      refine ⟨comes_of_main rfl, fun _ hv _ => ⟨hsame.routine, hsame.valid.trans hv⟩, ?_⟩
      intro hl
      unfold Worker.Late at hl ⊢
      rw [hpc] at hl
      exact ⟨by cases k <;> first | exact absurd hl id | trivial, rfl⟩
    · exact throw_owns h _
  · cases k with
    | yield k =>
      have hlate : ¬ w.Late := by
        unfold Worker.Late
        rw [hpc]
        exact id
      dsimp only
      unfold Worker.yieldStep
      split
      · have hat : At (st.setCurrent i none) w.routine p := h
        refine ⟨comes_stop hat _, fun _ hv _ => ?_, fun hl => absurd hl hlate⟩
        rw [stop_service]
        exact ⟨rfl, hv⟩
      · exact owns_conn rfl ⟨rfl, rfl, rfl, rfl⟩ hlate
    | finish => exact ⟨comes_of_main rfl, fun _ hv _ => ⟨rfl, hv⟩, fun _ => ⟨trivial, rfl⟩⟩
    | ret => exact absurd hpc hne

theorem enter_owns {i : ℕ} (hv : (st.service.conn e.place).valid = true)
    (hid : (st.service.conn e.place).id = w.pConn) (hl : ¬ w.Late)
    (hq : st.main.finished = []) :
    Owns e.place st w ((w.enterStep i x st e).1, (w.enterStep i x st e).2, false) := by
  unfold Worker.enterStep
  simp only [hid, if_true, create_eq hq]
  split
  · exact owns_conn rfl ⟨rfl, rfl, rfl, rfl⟩ hl
  · rename_i hr
    have hconn := state_setConn (st.grown e.place (st.linked i st.main.routines.length)) e.place
      { st.service.conn e.place with routine := some st.main.routines.length }
    refine ⟨fun k routine' hk => ?_, fun _ _ hown => ?_, fun h => absurd h hl⟩
    · replace hk : (st.main.routines ++ [.fresh e.place])[k]? = some routine' := hk
      unfold State.grown at hconn
      rw [hconn]
      rcases lt_or_ge k st.main.routines.length with hlt | hge
      · rw [List.getElem?_append_left hlt] at hk
        exact .inl ⟨routine', hk, rfl⟩
      · obtain ⟨hlen, hget⟩ := List.getElem?_eq_some_iff.mp hk
        obtain rfl : k = st.main.routines.length := by
          simp only [List.length_append, List.length_singleton] at hlen
          omega
        simp only [List.getElem_concat_length] at hget
        exact .inr ⟨by rw [← hget]; rfl, rfl, hv⟩
    · obtain ⟨r, hr'⟩ := hown
      exact absurd (hr.symm.trans hr') (by simp)

theorem resume_owns {i : ℕ} (hl : ¬ w.Late) (hres : Resumable st p w.routine)
    (hm : ∀ routine ∈ st.main.routines, routine.finished = false) :
    Owns p st w (w.resumeStep i st) := by
  obtain ⟨routine, hget, rfl, hctx⟩ := hres
  have hfin := hm routine (List.mem_of_getElem? hget)
  unfold Worker.resumeStep
  rw [hget]
  dsimp only
  rw [if_neg (by simp [hfin])]
  split <;> rename_i hc <;> rw [hc] at hctx
  · exact owns_conn rfl ⟨rfl, rfl, rfl, rfl⟩ hl
  · exact owns_conn rfl ⟨rfl, rfl, rfl, rfl⟩ hl
  · exact owns_conn rfl ⟨rfl, rfl, rfl, rfl⟩ hl
  · exact owns_conn rfl ⟨rfl, rfl, rfl, rfl⟩ hl
  · exact hctx.elim

theorem finish_owns (hlate : w.Late) : Owns p st w (w.finishStep x st) := by
  unfold Worker.finishStep Worker.dropRoutine
  split
  · exact ⟨comes_of_main rfl, fun h => absurd hlate h, fun _ => ⟨trivial, rfl⟩⟩
  · split <;> exact ⟨comes_of_main rfl, fun h => absurd hlate h, fun _ => ⟨trivial, rfl⟩⟩

/-- Outside its loop a worker creates a routine for the connection in hand, keeps its
routine there, or is at the end of the function. -/
theorem Worker.step_owns {i : ℕ} {es : List Event} {out : Bool}
    (h : w.step i x st = some (st', w', out)) (he : w.events = e :: es)
    (hpc : w.pc ≠ .waiting ∧ w.pc ≠ .looping ∧ w.pc ≠ .leaving) (hne : w.pc ≠ .modding [] .ret)
    (hp : w.Placed st.service) (hok : w.OkAt st e.place w.pc) (hq : st.main.finished = [])
    (hm : ∀ routine ∈ st.main.routines, routine.finished = false) :
    Owns e.place st w (st', w', out) := by
  obtain ⟨pc, events, pConn, routine, place⟩ := w
  obtain rfl : events = e :: es := he
  cases pc with
  | waiting => exact absurd rfl hpc.1
  | looping => exact absurd rfl hpc.2.1
  | leaving => exact absurd rfl hpc.2.2
  | entered =>
    have hstep := enter_owns (i := i) (x := x) hok.1 hok.2.1 id hq
    rwa [show (_, _, _) = _ from Option.some.inj h] at hstep
  | resuming =>
    have hstep := resume_owns (i := i) (w := ⟨.resuming, e :: es, pConn, routine, place⟩)
      id hok.2.2 hm
    rwa [show Worker.resumeStep _ _ _ = _ from Option.some.inj h] at hstep
  | starting =>
    obtain rfl : place = e.place := hp
    cases h
    have hconn := (reset_conn st.service e.place e.place x.stray).trans (if_pos rfl)
    refine owns_conn rfl ?_ id
    rw [State.setFrame, hconn]
    exact ⟨rfl, rfl, rfl, rfl⟩
  | reading =>
    have hstep := read_owns (x := x) (w := ⟨.reading, e :: es, pConn, routine, place⟩) hp
      hok.1.routine id
    rwa [show Worker.readStep _ _ _ = _ from Option.some.inj h] at hstep
  | writing =>
    have hstep := write_owns (x := x) (w := ⟨.writing, e :: es, pConn, routine, place⟩) hp
      hok.1.routine id
    rwa [show Worker.writeStep _ _ _ = _ from Option.some.inj h] at hstep
  | modding ms k =>
    have hat : At st routine e.place := by
      cases k with
      | yield k => exact hok.1.routine
      | finish | ret => exact hok.1.routine
    have hstep := mod_owns (i := i) (w := ⟨.modding ms k, e :: es, pConn, routine, place⟩)
      rfl hp hat hne
    rwa [show Worker.modStep _ _ _ _ _ = _ from Option.some.inj h] at hstep
  | finishing =>
    have hstep := @finish_owns e.place st ⟨.finishing, e :: es, pConn, routine, place⟩ x trivial
    rwa [show Worker.finishStep _ _ _ = _ from Option.some.inj h] at hstep
  | checking k =>
    simp only [Worker.step] at h
    split at h <;> cases h
    · exact ⟨comes_of_main rfl, fun hl => absurd trivial hl, fun _ => ⟨trivial, rfl⟩⟩
    · refine ⟨comes_of_main rfl, fun hl => absurd trivial hl, fun _ => ⟨?_, rfl⟩⟩
      cases k with
      | yield k => exact absurd rfl (hok.2 k)
      | finish | ret => trivial
  | pushing c k =>
    obtain ⟨-, h⟩ := Option.ite_none_right_eq_some.mp h
    cases h
    exact ⟨comes_of_main rfl, fun hl => absurd trivial hl, fun _ => ⟨trivial, rfl⟩⟩
  | shutting c k =>
    cases h
    refine ⟨comes_of_main rfl, fun hl => absurd trivial hl, fun _ => ⟨?_, rfl⟩⟩
    cases k with
    | yield k => exact absurd rfl (hok.2 k)
    | finish | ret => trivial
  | astray c => exact hok.elim

end Steps

/-! The whole service. -/

/-- Every routine belongs to its place's open connection or to a worker at its end. -/
def System.Housed (σ : System) : Prop :=
  ∀ r (routine : Routine ℕ Point Failure), σ.state.main.routines[r]? = some routine →
    (σ.state.service.conn routine.func).valid = true ∧
        (σ.state.service.conn routine.func).routine = some r ∨
      ∃ i, (σ.worker i).Late ∧ (σ.worker i).routine = r

/-- In its loop a worker has to do with mutexes only. -/
theorem Worker.step_loop {i : ℕ} {x : Input} {st st' : State} {w w' : Worker} {out : Bool}
    (h : w.step i x st = some (st', w', out))
    (hpc : w.events = [] ∨ w.pc = .waiting ∨ w.pc = .looping ∨ w.pc = .leaving) :
    ¬ w.Late ∧ st'.main = st.main ∧ ∀ q, st'.service.conn q = st.service.conn q := by
  obtain ⟨pc, events, pConn, routine, place⟩ := w
  cases events with
  | nil => cases pc <;> cases h <;> exact ⟨id, rfl, fun _ => rfl⟩
  | cons e es =>
    rcases hpc with hpc | rfl | rfl | rfl
    · cases hpc
    · cases h
      exact ⟨id, rfl, fun _ => rfl⟩
    · obtain ⟨-, h⟩ := Option.ite_none_right_eq_some.mp h
      cases h
      exact ⟨id, rfl, fun _ => setMutex_conn ..⟩
    · cases h
      exact ⟨id, rfl, fun _ => setMutex_conn ..⟩

theorem System.Housed.workerStep {σ : System} (h : σ.Housed) (hl : σ.Live) {i : ℕ} {x : Input}
    {st' : State} {w' : Worker} {out : Bool} (hne : (σ.worker i).pc ≠ .modding [] .ret)
    (hstep : (σ.worker i).step i x σ.state = some (st', w', out)) :
    System.Housed
      { σ with state := st', worker := Function.update σ.worker i w', halted := out } := by
  have hok := hl.ok i
  unfold Worker.Ok at hok
  by_cases hpc : (σ.worker i).events = [] ∨ (σ.worker i).pc = .waiting ∨
      (σ.worker i).pc = .looping ∨ (σ.worker i).pc = .leaving
  · obtain ⟨hlate, hmain, hconn⟩ := Worker.step_loop hstep hpc
    intro r routine hr
    dsimp only at hr ⊢
    rw [hmain] at hr
    rcases h r routine hr with hown | ⟨j, hj, hjr⟩
    · rw [hconn]
      exact .inl hown
    · have hji : j ≠ i := by
        rintro rfl
        exact hlate hj
      exact .inr ⟨j, by rwa [Function.update_of_ne hji], by rwa [Function.update_of_ne hji]⟩
  push Not at hpc
  obtain ⟨e, es, he⟩ := List.exists_cons_of_ne_nil hpc.1
  rw [he] at hok
  have ho := Worker.step_owns hstep he hpc.2 hne (hl.closes.placed i) hok hl.queue hl.unmarked
  intro r routine' hr
  dsimp only at hr ⊢
  rcases ho.comes r routine' hr with ⟨routine, hget, hfunc⟩ | ⟨hfunc, hown, hv⟩
  · rw [← hfunc]
    rcases h r routine hget with ⟨hv, hown⟩ | ⟨j, hj, hjr⟩
    · by_cases hq : routine.func = e.place
      · rw [hq] at hv hown ⊢
        by_cases hlate : (σ.worker i).Late
        · obtain ⟨hlate', hr'⟩ := ho.late hlate
          have honly := (hlate.inside hok).only r hown
          exact .inr ⟨i, by rwa [Function.update_self],
            by rw [Function.update_self, honly]; exact hr'⟩
        · obtain ⟨hr', hv'⟩ := ho.keeps hlate hv ⟨r, hown⟩
          exact .inl ⟨hv', hr'.trans hown⟩
      · rw [hl.keepsConn hstep he hq]
        exact .inl ⟨hv, hown⟩
    · by_cases hji : j = i
      · subst hji
        obtain ⟨hlate', hr'⟩ := ho.late hj
        exact .inr ⟨j, by rwa [Function.update_self],
          by rw [Function.update_self]; exact hr'.trans hjr⟩
      · exact .inr ⟨j, by rwa [Function.update_of_ne hji], by rwa [Function.update_of_ne hji]⟩
  · rw [hfunc]
    exact .inl ⟨hv, hown⟩

/-- The acceptor closes a place only where `close_if_timed_out` does. -/
theorem Acceptor.step_open {x : AcceptorInput} {s s' : Service} {a a' : Acceptor} {q : ℕ}
    (h : a.step true x s = some (s', a')) (hv : (s.conn q).valid = true)
    (hc : shutByScan a ≠ some q) : (s'.conn q).valid = true := by
  by_cases hs : (a.stage true).slot = some q
  · cases a with
    | closing p =>
      obtain ⟨-, h⟩ := Option.ite_none_right_eq_some.mp h
      cases h
      exact hv
    | halfClosed p => exact absurd hs hc
    | _ => cases hs
  · exact Acceptor.step_valid h hv hs

theorem System.Housed.step {σ σ' : System} {a : Act} (h : σ.Housed) (hl : σ.Live)
    (hm : KeepsRoutines σ a) (hstep : σ.step a = some σ') : σ'.Housed := by
  cases System.step_acts hstep with
  | acceptor hs =>
    intro r routine hr
    rcases h r routine hr with ⟨hv, hown⟩ | hlate
    · refine .inl ?_
      have hopen := Acceptor.step_open hs hv fun hc =>
        absurd ((hm.2 _ hc).symm.trans hown) (by simp)
      obtain hk | ⟨-, hshut, -⟩ :=
        Acceptor.step_carries (f := σ.stage) hs hl.closes.pool routine.func
      · exact ⟨hopen, hk.routine.trans hown⟩
      · exact absurd (hshut.symm.trans hv) (by simp)
    · exact .inr hlate
  | worker hs => exact h.workerStep hl hm.2 hs
  | taken | clock => exact h
  | @raise i e s hpc hs =>
    intro r routine hr
    rcases h r routine hr with ⟨hv, hown⟩ | ⟨j, hj, hjr⟩
    · refine .inl ?_
      rw [show State.service _ = s from rfl, raise_conn hs]
      exact ⟨hv, hown⟩
    · refine .inr ⟨j, ?_, ?_⟩ <;> dsimp only <;> by_cases hji : j = i
      · subst hji
        rw [Function.update_self]
        exact hj
      · rwa [Function.update_of_ne hji]
      · subst hji
        rw [Function.update_self]
        exact hjr
      · rwa [Function.update_of_ne hji]
  | stray hpc he => exact (hl.not_astray hpc he).elim

/-- An exception leaves a worker only while it serves an event. -/
theorem Worker.step_out {i : ℕ} {x : Input} {st st' : State} {w w' : Worker}
    (h : w.step i x st = some (st', w', true)) : w'.pc ≠ .waiting ∧ w'.pc ≠ .looping := by
  cases he : w.events with
  | nil =>
    obtain ⟨pc, events, pConn, routine, place⟩ := w
    obtain rfl : events = [] := he
    cases pc <;> cases h
  | cons e es =>
    have hpc : w.pc ≠ .waiting ∧ w.pc ≠ .looping ∧ w.pc ≠ .leaving := by
      obtain ⟨pc, events, pConn, routine, place⟩ := w
      obtain rfl : events = e :: es := he
      refine ⟨?_, ?_, ?_⟩ <;> rintro rfl
      · cases h
      · obtain ⟨-, h⟩ := Option.ite_none_right_eq_some.mp h
        cases h
      · cases h
    have hslot := Worker.step_slot h he hpc
    constructor <;> intro hw <;> simp [Worker.stage, hw, Stage.slot] at hslot

/-- What every run keeps that never takes a routine from its connection. -/
structure System.Kept (σ : System) : Prop where
  halts : σ.halted = true → ¬ σ.Between
  live : σ.halted = false → σ.Live ∧ σ.Housed

theorem System.start_kept (connTimeo kaConnTimeo : ℕ) :
    (System.start connTimeo kaConnTimeo).Kept :=
  ⟨fun h => (by cases h), fun _ => ⟨System.start_live _ _, fun r routine hr => (by cases hr)⟩⟩

theorem System.step_halts {σ σ' : System} {a : Act} (hstep : σ.step a = some σ')
    (h : σ'.halted = true) : ¬ σ'.Between := by
  have hlive := System.step_live hstep
  cases System.step_acts hstep with
  | acceptor => exact absurd (hlive.symm.trans h) (by simp)
  | @worker i x st w out hs =>
    obtain rfl : out = true := h
    intro hb
    have hi := hb i
    dsimp only at hi
    rw [Function.update_self] at hi
    exact hi.elim (Worker.step_out hs).1 (Worker.step_out hs).2
  | @taken i x htaken hpc =>
    intro hb
    have hi := hb i
    dsimp only at hi
    rw [hpc] at hi
    simp at hi
  | clock | raise => exact absurd (hlive.symm.trans h) (by simp)
  | @stray i c e es hpc he =>
    intro hb
    have hi := hb i
    unfold System.goAstray at hi
    dsimp only at hi
    split at hi
    · simp at hi
    · simp [hpc] at hi

theorem System.run_kept {connTimeo kaConnTimeo : ℕ} {as : List Act} {σ : System}
    (hm : Transition.Along System.step KeepsRoutines (System.start connTimeo kaConnTimeo) as)
    (h : (System.start connTimeo kaConnTimeo).run as = some σ) : σ.Kept :=
  Transition.run_invariant (I := System.Kept)
    (fun _ _ _ hi hm hs => ⟨System.step_halts hs, fun hlive => by
      obtain ⟨hl, hh⟩ := hi.live (System.step_live hs)
      exact ⟨hl.step hm.1 hs hlive, hh.step hl hm hs⟩⟩)
    (System.start_kept _ _) hm h

/-- In every run in which `serve_client` never returns, no client with a routine is timed
out and the workers take up only events of open connections, every routine has its owner
whenever no event is being served. -/
theorem routines_owned {connTimeo kaConnTimeo : ℕ} {as : List Act} {σ : System}
    (hm : Transition.Along System.step KeepsRoutines (System.start connTimeo kaConnTimeo) as)
    (h : (System.start connTimeo kaConnTimeo).run as = some σ) (hb : σ.Between) : σ.Owned := by
  have hk := System.run_kept hm h
  have hlive : σ.halted = false := by
    by_contra hhalt
    exact hk.halts (by simpa using hhalt) hb
  obtain ⟨hl, hh⟩ := hk.live hlive
  have halone : ∀ p q r, (σ.state.service.conn p).routine = some r →
      (σ.state.service.conn q).routine = some r → p = q := by
    intro p q r hp hq
    obtain ⟨routine, hget, rfl⟩ := hl.home p r hp
    obtain ⟨routine', hget', rfl⟩ := hl.home q r hq
    rw [Option.some.inj (hget.symm.trans hget')]
  refine ⟨fun r hr => .inr ⟨?_, by simp [hl.queue]⟩, halone⟩
  rcases hh r _ (List.getElem?_eq_getElem hr) with ⟨hv, hown⟩ | ⟨i, hi, -⟩
  · exact ⟨_, ⟨hl.closes.pool.opened _ hv, hv, hown⟩, fun q hq => halone _ _ r hq.2.2 hown⟩
  · unfold Worker.Late at hi
    rcases hb i with hpc | hpc <;> rw [hpc] at hi <;> exact absurd hi id

/-- The worker that the action concerns. -/
def Act.worked : Act → Option ℕ
  | .worker i _ | .raise i _ | .stray i => some i
  | .acceptor _ | .clock _ => none

theorem System.step_worker {σ σ' : System} {a : Act} {j : ℕ} (h : σ.step a = some σ')
    (hj : a.worked ≠ some j) : σ'.worker j = σ.worker j := by
  cases System.step_acts h with
  | acceptor | taken | clock => rfl
  | worker | raise => exact Function.update_of_ne (fun hji => hj (congrArg some hji.symm)) ..
  | stray => exact System.goAstray_worker fun hji => hj (congrArg some hji.symm)

/-- A worker that no action of the run concerns waits. -/
theorem System.run_between {connTimeo kaConnTimeo n : ℕ} {as : List Act} {σ : System}
    (h : (System.start connTimeo kaConnTimeo).run as = some σ)
    (has : ∀ a ∈ as, ∀ i ∈ a.worked, i < n)
    (hn : ∀ i < n, (σ.worker i).pc = .waiting ∨ (σ.worker i).pc = .looping) : σ.Between := by
  intro j
  rcases lt_or_ge j n with hj | hj
  · exact hn j hj
  have hkeeps : ∀ (as : List Act) (σ₀ : System), (∀ a ∈ as, ∀ i ∈ a.worked, i < n) →
      σ₀.run as = some σ → σ.worker j = σ₀.worker j := by
    intro as
    induction as with
    | nil =>
      intro σ₀ _ h
      cases h
      rfl
    | cons a as ih =>
      intro σ₀ has h
      obtain ⟨σ₁, hstep, hrun⟩ := Transition.run_cons_some h
      have hne : a.worked ≠ some j := fun ha => absurd (has a (by simp) j ha) (by omega)
      rw [ih σ₁ (fun b hb => has b (by simp [hb])) hrun, System.step_worker hstep hne]
  rw [hkeeps as _ has h]
  exact .inl rfl

/-- Two clients have sent part of a request each. -/
def partialRun : List Act :=
  accepts 14 ++ [.raise 0 ⟨1, 1, true, false⟩, .raise 1 ⟨0, 0, true, false⟩] ++ works 0 5 ++
    works 1 5 ++ reads 1 (oneRead (lit "GET / H")) ++ reads 0 (oneRead (lit "GE")) ++
    works 0 4 ++ works 1 4

theorem routines_owned_suspended :
    ∃ σ, (System.start 20 60).run partialRun = some σ ∧ σ.state.main.routines.length = 2 ∧
      (σ.state.service.conn 0).routine = some 1 ∧ σ.Owned := by
  have hrun : ((System.start 20 60).run partialRun).map (fun σ =>
      (σ.state.main.routines.length, (σ.state.service.conn 0).routine,
        (σ.worker 0).pc, (σ.worker 1).pc)) = some (2, some 1, .waiting, .waiting) := by
    decide +kernel
  have hkeeps : Transition.Along System.step KeepsRoutines (System.start 20 60) partialRun := by
    decide +kernel
  obtain ⟨σ, hσ, hq⟩ := Option.map_eq_some_iff.mp hrun
  simp only [Prod.mk.injEq] at hq
  obtain ⟨hlen, hown, h0, h1⟩ := hq
  have hb : σ.Between := System.run_between (n := 2) hσ (by decide) fun i hi => by
    interval_cases i
    · exact .inl h0
    · exact .inl h1
  exact ⟨σ, hσ, hlen, hown, routines_owned hkeeps hσ hb⟩

/-- The routine of a client that closes its end is neither in the queue nor that of an open
connection. -/
theorem routine_leaked :
    ∃ σ, (System.start 20 60).run (eofRun ++ works 0 1) = some σ ∧ σ.Between ∧
      σ.state.main.routines.length = 1 ∧ σ.state.main.finished = [] ∧
      (σ.state.service.conn 0).valid = false ∧ ¬ σ.Owned := by
  have hrun : ((System.start 20 60).run (eofRun ++ works 0 1)).map (fun σ =>
      (σ.state.main.routines.length, σ.state.main.finished, σ.state.service.size,
        (σ.state.service.conn 0).valid, (σ.worker 0).pc)) = some (1, [], 1, false, .waiting) := by
    decide +kernel
  obtain ⟨σ, hσ, hq⟩ := Option.map_eq_some_iff.mp hrun
  simp only [Prod.mk.injEq] at hq
  obtain ⟨hlen, hfin, hsize, hv, h0⟩ := hq
  have hb : σ.Between := System.run_between (n := 1) hσ (by decide) fun i hi => by
    interval_cases i
    exact .inl h0
  refine ⟨σ, hσ, hb, hlen, hfin, hv, fun h => ?_⟩
  rcases h.owner 0 (by omega) with ⟨hmem, -⟩ | ⟨⟨p, ⟨hp, hopen, -⟩, -⟩, -⟩
  · rw [hfin] at hmem
    cases hmem
  · obtain rfl : p = 0 := by omega
    exact absurd (hv.symm.trans hopen) (by simp)

end Sphere.Cor
