import Sphere.Cor.Live

/-! The bytes of the responses of `CoroutineService`. While the workers take up only events
of open connections, a request is read with nothing left to write, so the response that
`HttpConnection::write` assigns replaces nothing. -/

namespace Sphere.Cor

open Lib Net Http SlotPool

/-- What a step does to the output of a connection. -/
structure Outputs (c c' : HttpConnection) : Prop where
  delivered : Delivered c → Delivered c'
  called : c'.replies ≠ c.replies → (∃ r, c'.replies = c.replies ++ [r]) ∧ c.write = []

theorem SameOutput.outputs {c c' : HttpConnection} (h : SameOutput c c') : Outputs c c' :=
  ⟨h.delivered, fun hne => absurd h.replies hne⟩

theorem outputs_of_eq {c c' : HttpConnection} (h : c' = c) : Outputs c c' :=
  SameOutput.outputs (.of_eq h)

theorem answer_outputs {c : HttpConnection} (hw : c.write = []) (reply : Responce) :
    Outputs c (answer c reply) :=
  ⟨fun hc => SameOutput.delivered ⟨rfl, rfl, rfl⟩ (putResponce_delivered (r := reply) hc hw),
    fun _ => ⟨⟨reply, rfl⟩, hw⟩⟩

theorem write_outputs (writes : List WriteResult) (c : HttpConnection) :
    Outputs c (tryWriteResponce c writes).1 :=
  ⟨tryWriteResponce_delivered writes, fun hne => absurd (tryWriteResponce_replies writes c) hne⟩

section Steps

variable {i p : ℕ} {x : Input} {st : State} {w : Worker}

theorem setConn_outputs {c : HttpConnection} (h : Outputs (st.service.conn p) c) :
    Outputs (st.service.conn p) ((st.setConn p c).service.conn p) := by
  rwa [state_setConn]

theorem readEnd_service (next : Next) : (w.readEnd st next).1.service = st.service := by
  cases next <;> first | rfl | exact stop_service ..

theorem read_outputs (hp : w.place = p) (h : Active st w.routine p)
    (hb : Behind st w.routine p .reading) :
    Outputs (st.service.conn p) ((w.readStep x st).1.service.conn p) := by
  have hout := tryReadRequest_output x.reads h.valid
  unfold Worker.readStep
  rw [hp]
  dsimp only
  rw [if_pos (hb.inner (by simp)).symm]
  split <;> rename_i hread <;> rw [hread] at hout
  · rw [readEnd_service]
    exact setConn_outputs (SameOutput.outputs hout)
  · rw [readEnd_service]
    exact setConn_outputs (SameOutput.outputs hout)
  · refine setConn_outputs ?_
    have hanswer := answer_outputs (hout.write.trans (hb.write rfl)) x.reply
    refine ⟨fun hc => hanswer.delivered (hout.delivered hc), fun hne => ?_⟩
    rw [← hout.replies] at hne ⊢
    exact ⟨(hanswer.called hne).1, hb.write rfl⟩

theorem throw_service (err : Failure) : (w.throw st err).1.service = st.service :=
  stop_service ..

theorem writeStep_outputs (hp : w.place = p) (hb : Behind st w.routine p .writing) :
    Outputs (st.service.conn p) ((w.writeStep x st).1.service.conn p) := by
  have hout := write_outputs x.writes (st.service.conn p)
  unfold Worker.writeStep
  rw [hp]
  dsimp only
  rw [if_pos (hb.inner (by simp)).symm]
  split <;> rename_i hwrite <;> rw [hwrite] at hout
  · exact setConn_outputs hout
  · split <;> exact setConn_outputs hout
  · rw [throw_service]
    exact setConn_outputs hout
  · exact setConn_outputs hout

theorem mod_outputs (hp : w.place = p) (ms : List Mod) (k : Then) :
    Outputs (st.service.conn p) ((w.modStep i st ms k).1.service.conn p) := by
  have hstop : ∀ out, (st.stop w.routine out).service.conn p = st.service.conn p := fun out => by
    rw [stop_service]
  unfold Worker.modStep
  split
  · rename_i m ms
    rw [hp]
    split
    · rename_i s hs
      unfold Service.epollMod at hs
      split at hs <;> cases hs
      refine SameOutput.outputs ?_
      dsimp only
      rw [setConn_conn, if_pos rfl]
      cases m <;> exact ⟨rfl, rfl, rfl⟩
    · exact outputs_of_eq (hstop _)
  · split
    · unfold Worker.yieldStep
      split
      · refine outputs_of_eq ?_
        rw [stop_service]
        rfl
      · exact outputs_of_eq rfl
    · exact outputs_of_eq rfl
    · exact outputs_of_eq (hstop _)

theorem finish_outputs (hp : w.place = p) :
    Outputs (st.service.conn p) ((w.finishStep x st).1.service.conn p) := by
  unfold Worker.finishStep Worker.dropRoutine
  rw [hp]
  split
  · exact outputs_of_eq rfl
  · split
    · exact setConn_outputs (SameOutput.outputs ⟨rfl, rfl, rfl⟩)
    · exact outputs_of_eq rfl

theorem enter_outputs (e : Event) :
    Outputs (st.service.conn e.place) ((w.enterStep i x st e).1.service.conn e.place) := by
  unfold Worker.enterStep
  dsimp only
  split
  · exact outputs_of_eq rfl
  · refine SameOutput.outputs ?_
    dsimp only
    rw [state_setConn]
    split <;> exact ⟨rfl, rfl, rfl⟩

theorem resume_service : (w.resumeStep i st).1.service = st.service := by
  unfold Worker.resumeStep
  split
  · rfl
  · dsimp only
    split
    · rfl
    · split <;> try rfl
      unfold Worker.entryStep
      dsimp only
      split <;> rfl

/-- Serving the event in hand concerns the responses only in that it reads a request with
nothing left to write, and writes. -/
theorem Worker.step_outputs {st' : State} {w' : Worker} {out : Bool} {e : Event}
    {es : List Event} (h : w.step i x st = some (st', w', out)) (he : w.events = e :: es)
    (hp : w.Placed st.service) (hok : w.OkAt st e.place w.pc) :
    Outputs (st.service.conn e.place) (st'.service.conn e.place) := by
  obtain ⟨pc, events, pConn, routine, place⟩ := w
  obtain rfl : events = e :: es := he
  cases pc with
  | waiting =>
    cases h
    exact outputs_of_eq rfl
  | looping =>
    obtain ⟨-, h⟩ := Option.ite_none_right_eq_some.mp h
    cases h
    exact outputs_of_eq (setMutex_conn ..)
  | entered =>
    cases h
    exact enter_outputs e
  | resuming =>
    have hstep := @resume_service i st ⟨.resuming, e :: es, pConn, routine, place⟩
    rw [show Worker.resumeStep _ _ _ = _ from Option.some.inj h] at hstep
    exact outputs_of_eq (congrArg (fun s : Service => s.conn e.place) hstep)
  | starting =>
    obtain rfl : place = e.place := hp
    cases h
    have hconn := (reset_conn st.service e.place e.place x.stray).trans (if_pos rfl)
    have hsame : SameOutput (st.service.conn e.place)
        ((st.service.resetLastActivityTime e.place x.stray).conn e.place) := by
      rw [hconn]
      exact ⟨rfl, rfl, rfl⟩
    exact SameOutput.outputs hsame
  | reading =>
    have hstep := read_outputs (x := x) (w := ⟨.reading, e :: es, pConn, routine, place⟩) hp hok.1
      hok.2
    rwa [show Worker.readStep _ _ _ = _ from Option.some.inj h] at hstep
  | writing =>
    have hstep := writeStep_outputs (x := x) (w := ⟨.writing, e :: es, pConn, routine, place⟩) hp
      hok.2
    rwa [show Worker.writeStep _ _ _ = _ from Option.some.inj h] at hstep
  | modding ms k =>
    have hstep := @mod_outputs i e.place st ⟨.modding ms k, e :: es, pConn, routine, place⟩ hp ms k
    rwa [show Worker.modStep _ _ _ _ _ = _ from Option.some.inj h] at hstep
  | finishing =>
    have hstep := @finish_outputs e.place x st ⟨.finishing, e :: es, pConn, routine, place⟩ hp
    rwa [show Worker.finishStep _ _ _ = _ from Option.some.inj h] at hstep
  | checking k =>
    simp only [Worker.step] at h
    split at h <;> cases h <;> exact outputs_of_eq rfl
  | pushing c k =>
    obtain ⟨-, h⟩ := Option.ite_none_right_eq_some.mp h
    cases h
    exact outputs_of_eq rfl
  | shutting c k =>
    obtain ⟨rfl, hid⟩ : place = e.place ∧ (st.service.conn e.place).id = c := hp
    simp only [Worker.step, hid, if_true] at h
    cases h
    have hsame : SameOutput (st.service.conn e.place)
        ((st.setConn e.place (st.service.conn e.place).close).service.conn e.place) := by
      rw [state_setConn]
      exact ⟨rfl, rfl, rfl⟩
    exact SameOutput.outputs hsame
  | leaving =>
    cases h
    exact outputs_of_eq (setMutex_conn ..)
  | astray c => exact hok.elim

end Steps

/-! The whole service. -/

/-- After a step the socket of a connection has taken a prefix of the responses, also in
the middle of writing, and in the step a worker calls the listener for a connection only
if the socket has taken all responses before. -/
structure Responds (σ : System) (a : Act) (σ' : System) : Prop where
  sent : ∀ p writes, (tryWriteResponce (σ'.state.service.conn p) writes).1.sent <+:
    (σ'.state.service.conn p).promised
  called : ∀ i x, a = .worker i x → ∀ p,
    (σ'.state.service.conn p).replies ≠ (σ.state.service.conn p).replies →
    (∃ r, (σ'.state.service.conn p).replies = (σ.state.service.conn p).replies ++ [r]) ∧
      (σ.state.service.conn p).sent = (σ.state.service.conn p).promised

/-- What a step of a worker does to the output of all connections. -/
theorem System.Live.outputs {σ : System} (h : σ.Live) {i : ℕ} {x : Input} {st' : State}
    {w' : Worker} {out : Bool} (hstep : (σ.worker i).step i x σ.state = some (st', w', out))
    (q : ℕ) :
    Outputs (σ.state.service.conn q) (st'.service.conn q) := by
  have hok := h.ok i
  unfold Worker.Ok at hok
  cases he : (σ.worker i).events with
  | nil =>
    obtain ⟨rfl, -⟩ := Worker.step_nil hstep he
    exact outputs_of_eq rfl
  | cons e es =>
    rw [he] at hok
    by_cases hq : q = e.place
    · rw [hq]
      exact Worker.step_outputs hstep he (h.closes.placed i) hok
    · exact outputs_of_eq (h.keepsConn hstep he hq)

theorem System.Live.delivered {σ σ' : System} {a : Act} (h : σ.Live)
    (hd : ∀ p, Delivered (σ.state.service.conn p)) (hstep : σ.step a = some σ') (p : ℕ) :
    Delivered (σ'.state.service.conn p) := by
  cases System.step_acts hstep with
  | acceptor hs =>
    obtain hk | ⟨-, -, id, now, hnew⟩ := Acceptor.step_carries (f := σ.stage) hs h.closes.pool p
    · exact SameOutput.delivered ⟨hk.write, hk.sent, hk.replies⟩ (hd p)
    · exact hnew ▸ rfl
  | worker hs => exact (h.outputs hs p).delivered (hd p)
  | taken | clock => exact hd p
  | @raise i e s hpc hs =>
    have hsame : SameOutput (σ.state.service.conn p) (s.conn p) := by
      rw [raise_conn hs p]
      exact ⟨rfl, rfl, rfl⟩
    exact hsame.delivered (hd p)
  | stray hpc he => exact (h.not_astray hpc he).elim

theorem System.run_delivered {connTimeo kaConnTimeo : ℕ} {as : List Act} {σ : System}
    (hm : Transition.Along System.step TakesOpen (System.start connTimeo kaConnTimeo) as)
    (h : (System.start connTimeo kaConnTimeo).run as = some σ) :
    (∀ p, Delivered (σ.state.service.conn p)) ∧ (σ.halted = false → σ.Live) :=
  Transition.run_invariant
    (I := fun σ : System => (∀ p, Delivered (σ.state.service.conn p)) ∧ (σ.halted = false → σ.Live))
    (fun _ _ _ hi hm hs => ⟨(hi.2 (System.step_live hs)).delivered hi.1 hs,
      fun hlive => (hi.2 (System.step_live hs)).step hm hs hlive⟩)
    ⟨fun p => show Delivered ((System.start connTimeo kaConnTimeo).state.service.conn p) from rfl,
      fun _ => System.start_live _ _⟩ hm h

/-- In every run in which the workers take up only events of open connections, every step
writes the responses in order and calls the listener in order. -/
theorem responses_in_order {connTimeo kaConnTimeo : ℕ} {as : List Act} {a : Act} {σ σ' : System}
    (hm : Transition.Along System.step TakesOpen (System.start connTimeo kaConnTimeo) as)
    (h : (System.start connTimeo kaConnTimeo).run as = some σ) (hstep : σ.step a = some σ') :
    Responds σ a σ' := by
  obtain ⟨hd, hlive⟩ := System.run_delivered hm h
  have hl := hlive (System.step_live hstep)
  refine ⟨fun p writes => written_prefix (hl.delivered hd hstep p) writes, ?_⟩
  rintro i x rfl p hne
  obtain ⟨-, hstep⟩ := Option.ite_none_left_eq_some.mp hstep
  dsimp only at hstep
  split at hstep
  · cases hstep
    exact absurd rfl hne
  obtain ⟨⟨st', w', out⟩, hs, rfl⟩ := Option.map_eq_some_iff.mp hstep
  obtain ⟨hr, hw⟩ := (hl.outputs hs p).called hne
  refine ⟨hr, ?_⟩
  have hdelivered : (σ.state.service.conn p).sent ++ [] = (σ.state.service.conn p).promised :=
    hw ▸ hd p
  rwa [List.append_nil] at hdelivered

/-- A keep-alive request comes whole and gets a response. -/
def served (i : ℕ) (code : UInt16) : List Act :=
  [.worker i { plainInput with
    reads := [.data (oneRead (lit "GET a HTTP/1.1\r\nConnection: Keep-Alive\r\n\r\n"))]
    reply := ⟨lit "1.1", code, lit "OK", [], []⟩ }]

/-- A client sends a request; the socket takes the response in two pieces. -/
def answeredRun : List Act :=
  accepts 8 ++ [.raise 0 ⟨0, 0, true, false⟩] ++ works 0 5 ++ served 0 200 ++ works 0 4 ++
    [.raise 0 ⟨0, 0, false, true⟩] ++ works 0 4 ++
    [.worker 0 { plainInput with writes := [.wrote 9] }] ++ works 0 4 ++
    [.raise 0 ⟨0, 0, false, true⟩] ++ works 0 4

theorem responses_in_order_partly :
    ∃ σ σ', (System.start 20 60).run answeredRun = some σ ∧
      σ.step (.worker 0 plainInput) = some σ' ∧
      (σ.state.service.conn 0).sent = lit "HTTP/1.1 " ∧
      (σ'.state.service.conn 0).sent = lit "HTTP/1.1 200 OK\r\n\r\n" ∧
      Responds σ (.worker 0 plainInput) σ' := by
  have hrun : ((System.start 20 60).run answeredRun).map (fun σ =>
      ((σ.state.service.conn 0).sent, (σ.step (.worker 0 plainInput)).map fun σ' =>
        (σ'.state.service.conn 0).sent)) =
      some (lit "HTTP/1.1 ", some (lit "HTTP/1.1 200 OK\r\n\r\n")) := by decide +kernel
  have hopen : Transition.Along System.step TakesOpen (System.start 20 60) answeredRun := by
    decide +kernel
  obtain ⟨σ, hσ, hq⟩ := Option.map_eq_some_iff.mp hrun
  obtain ⟨hsent, hq⟩ := Prod.mk.inj hq
  obtain ⟨σ', hstep, hsent'⟩ := Option.map_eq_some_iff.mp hq
  exact ⟨σ, σ', hσ, hstep, hsent, hsent', responses_in_order hopen hσ hstep⟩

/-- A worker has an event of a client in hand when the client is timed out, and has created
a routine for its connection when another client gets the place: the connection is gone,
the routine serves the other client, and the response to its first request is lost when
the second one finds it unwritten. -/
def lateRun : List Act :=
  accepts 8 ++ [.raise 0 ⟨0, 0, true, false⟩] ++ works 0 1 ++ [.clock 25000000000] ++
    [.acceptor ⟨false, .empty⟩] ++ accepts 8 ++ works 0 2 ++ accepts 4 ++ works 0 2 ++
    served 0 200 ++ works 0 4 ++ [.raise 0 ⟨0, 1, true, false⟩] ++ works 0 5 ++ served 0 404 ++
    works 0 4 ++ [.raise 0 ⟨0, 1, false, true⟩] ++ works 0 5

theorem response_overwritten :
    ∃ σ, (System.start 20 60).run lateRun = some σ ∧ (σ.state.service.conn 0).valid = true ∧
      (σ.state.service.conn 0).sent = lit "HTTP/1.1 404 OK\r\n\r\n" ∧
      ¬ (σ.state.service.conn 0).sent <+: (σ.state.service.conn 0).promised := by
  have hrun : ((System.start 20 60).run lateRun).map (fun σ =>
      ((σ.state.service.conn 0).valid, (σ.state.service.conn 0).sent,
        (σ.state.service.conn 0).replies)) =
      some (true, lit "HTTP/1.1 404 OK\r\n\r\n",
        [⟨lit "1.1", 200, lit "OK", [], []⟩, ⟨lit "1.1", 404, lit "OK", [], []⟩]) := by
    decide +kernel
  obtain ⟨σ, hσ, hq⟩ := Option.map_eq_some_iff.mp hrun
  simp only [Prod.mk.injEq] at hq
  obtain ⟨hv, hsent, hreplies⟩ := hq
  refine ⟨σ, hσ, hv, hsent, ?_⟩
  unfold HttpConnection.promised
  rw [hsent, hreplies]
  decide +kernel

end Sphere.Cor
