import Sphere.Http.Handling

/-! What a listener may do to the connection it is given. Besides reading the request and
writing a response it can close the connection; the worker goes on as if it had not, adds
`WRITE` to the options and tells epoll of a descriptor that is gone. -/

namespace Sphere.Http

open Lib Net Settle

/-- The public operations of a connection, which `OnRequest` may call. -/
inductive Call
  | request
  | isKeepAlive
  | write (res : Responce)
  | close
  deriving DecidableEq

def HttpConnection.call (c : HttpConnection) : Call → HttpConnection
  | .request | .isKeepAlive => c
  | .write res => c.putResponce res
  | .close => c.close

/-- What `work` does once `try_read_request` has returned true. -/
def onRequestCalls (c : HttpConnection) (calls : List Call) : HttpConnection :=
  let c := calls.foldl HttpConnection.call c
  let c := if c.keepAlive then { c with read := [] } else c.unsubscribe READ
  c.subscribe WRITE

def serveCalls (c : HttpConnection) (e : Event) (x : Script) (calls : List Call) :
    HttpConnection × Next :=
  if e.isIn then
    match tryReadRequest c x.reads with
    | (c, some next) => (c, next)
    | (c, none) => (onRequestCalls c calls, .finish)
  else serve c e x

def Worker.serveStepCalls (x : Input) (calls : List Call) (s : Service) (w : Worker) (e : Event) :
    Stepped Worker :=
  let served := serveCalls (s.conn e.place) e x.script calls
  let s := s.setConn e.place served.1
  match if served.2 = .undefined then x.guess else served.2 with
  | .thrown _ | .undefined => (s, w, true)
  | .close k => (s, { w with pc := .checking k }, false)
  | .rearm => s.subscribeThen e.place READ w .leaving
  | .finish => (s, { w with pc := .finishing }, false)

/-- The worker's step with a listener that makes these calls. -/
def Worker.stepCalls (i : ℕ) (x : Input) (calls : List Call) (s : Service) (w : Worker) :
    Option (Stepped Worker) :=
  match w.pc, w.events with
  | .serving, e :: _ => some (w.serveStepCalls x calls s e)
  | _, _ => w.step i x s

/-! A listener that only writes is the one of `Worker.step`. -/

theorem onRequestCalls_write (c : HttpConnection) (replies : List Responce) :
    onRequestCalls c (replies.map .write) = onRequest c replies := by
  unfold onRequestCalls onRequest
  rw [List.foldl_map]
  rfl

theorem serveCalls_write (c : HttpConnection) (e : Event) (x : Script) :
    serveCalls c e x (x.replies.map .write) = serve c e x := by
  unfold serveCalls serve
  split_ifs
  · rcases tryReadRequest c x.reads with ⟨c', next | next⟩
    · exact congrArg (·, Next.finish) (onRequestCalls_write c' x.replies)
    · rfl
  · rfl
  · rfl

theorem Worker.stepCalls_write (i : ℕ) (x : Input) (s : Service) (w : Worker) :
    w.stepCalls i x (x.script.replies.map .write) s = w.step i x s := by
  unfold Worker.stepCalls
  split
  · rename_i e es hpc he
    have hstep : w.step i x s = some (w.serveStep x s e) := by
      simp only [Worker.step, hpc, he]
    have hserve : w.serveStepCalls x (x.script.replies.map .write) s e = w.serveStep x s e := by
      unfold Worker.serveStepCalls
      rewrite [serveCalls_write]
      rfl
    rw [hstep, hserve]
  · rfl

/-! The calls. -/

/-- The connection is closed if one of the calls does so, and else stays as it is. -/
structure Called (calls : List Call) (c c' : HttpConnection) : Prop where
  id : c'.id = c.id
  closed : .close ∈ calls → c'.valid = false ∧ c'.watch = .absent
  kept : .close ∉ calls → c'.valid = c.valid ∧ c'.watch = c.watch

theorem calls_called (calls : List Call) (c : HttpConnection) :
    Called calls c (calls.foldl HttpConnection.call c) := by
  induction calls generalizing c with
  | nil => exact ⟨rfl, nofun, fun _ => ⟨rfl, rfl⟩⟩
  | cons k calls ih =>
    obtain ⟨hid, hclosed, hkept⟩ := ih (c.call k)
    rw [List.foldl_cons]
    cases k with
    | close =>
      refine ⟨hid, fun _ => ?_, fun hno => absurd (List.mem_cons_self ..) hno⟩
      by_cases hmem : .close ∈ calls
      · exact hclosed hmem
      · exact hkept hmem
    | request => exact ⟨hid, fun h => hclosed (by simpa using h), fun h => hkept (by simpa using h)⟩
    | isKeepAlive =>
      exact ⟨hid, fun h => hclosed (by simpa using h), fun h => hkept (by simpa using h)⟩
    | write res =>
      exact ⟨hid, fun h => hclosed (by simpa using h), fun h => hkept (by simpa using h)⟩

theorem onRequestCalls_called (calls : List Call) (c : HttpConnection) :
    Called calls c (onRequestCalls c calls) := by
  obtain ⟨hid, hclosed, hkept⟩ := calls_called calls c
  unfold onRequestCalls
  dsimp only
  split <;> exact ⟨hid, hclosed, hkept⟩

/-- The options hold `WRITE` then, whatever the listener has done. -/
theorem onRequestCalls_option (calls : List Call) (c : HttpConnection) :
    (onRequestCalls c calls).epollOption ≠ ET_ONESHOT := by
  unfold onRequestCalls HttpConnection.subscribe
  intro h
  have hbit := congrArg (fun o : OPTION => o.bits.getLsbD 2) h
  simp [HAdd.hAdd, Add.add, WRITE, ET_ONESHOT] at hbit

/-! The worker. -/

/-- The place is open and epoll has been told of it, or it is closed and queued once; and no
exception has left the loop. -/
def Accounted (p : ℕ) (r : Stepped Worker) : Prop :=
  r.2.2 = false ∧ ((r.1.conn p).valid = true ∧ (∃ opt, (r.1.conn p).watch = .armed opt) ∨
    (r.1.conn p).valid = false ∧ r.1.closed.count p = 1)

/-- The worker steps until it is through with its first event, or an exception leaves it. -/
def Worker.handleCalls (i : ℕ) (x : Input) (calls : List Call) (n : ℕ) (s : Service) (w : Worker) :
    Option (Stepped Worker) :=
  settle (fun r => r.2.1.stepCalls i x calls r.1)
    (fun r => r.2.2 || decide (r.2.1.events.length < w.events.length)) n (s, w, false)

section Handle

variable {i n pConn : ℕ} {x : Input} {calls : List Call} {s : Service} {e : Event}
  {es : List Event} {P : Stepped Worker → Prop}

/-- From a program point of the worker on, with the event in hand. -/
abbrev GoesCalls (i : ℕ) (x : Input) (calls : List Call) (e : Event) (es : List Event) (n : ℕ)
    (r : Stepped Worker) (P : Stepped Worker → Prop) : Prop :=
  Ends (fun r : Stepped Worker => r.2.1.stepCalls i x calls r.1)
    (fun r => r.2.2 || decide (r.2.1.events.length < (e :: es).length)) n r P

theorem goesCalls_step {s' : Service} {pc pc' : Pc} {q q' : ℕ}
    (hs : Worker.stepCalls i x calls s ⟨pc, e :: es, q⟩ = some (s', ⟨pc', e :: es, q'⟩, false))
    (h : GoesCalls i x calls e es n (s', ⟨pc', e :: es, q'⟩, false) P) :
    GoesCalls i x calls e es (n + 1) (s, ⟨pc, e :: es, q⟩, false) P :=
  ends_step (by simp) hs h

/-- The end of the handling, with the listener's marks on the connection. -/
theorem finishing_accounted {c : HttpConnection} (hcalled : Called calls c (s.conn e.place))
    (hopt : (s.conn e.place).epollOption ≠ ET_ONESHOT) (hid : (s.conn e.place).id = pConn)
    (hv : c.valid = true) :
    GoesCalls i x calls e es (n + 2) (s, ⟨.finishing, e :: es, pConn⟩, false)
      (fun r => Accounted e.place r ↔ .close ∉ calls ∧ c.watch ≠ .absent) := by
  have hone : Worker.isOneshot x s ⟨.finishing, e :: es, pConn⟩ e = false := by
    simp [Worker.isOneshot, hid, hopt]
  have hstep : Worker.stepCalls i x calls s ⟨.finishing, e :: es, pConn⟩ =
      some (s.subscribeThen e.place UNKNOWN ⟨.finishing, e :: es, pConn⟩ .leaving) := by
    simp only [Worker.stepCalls, Worker.step, Worker.finishStep, hone, Bool.false_eq_true, if_false]
  by_cases hgone : (s.conn e.place).watch = .absent
  · have hthrow : s.subscribeThen e.place UNKNOWN ⟨.finishing, e :: es, pConn⟩ .leaving =
        (s, ⟨.finishing, e :: es, pConn⟩, true) := by
      have hsub : ((s.conn e.place).subscribe UNKNOWN).watch = .absent := hgone
      simp only [Service.subscribeThen, Service.subscribe, Service.epollMod, hsub, if_true]
    rw [hthrow] at hstep
    refine ends_step (by simp) hstep (ends_done _ rfl ⟨fun h => ?_, fun h => ?_⟩)
    · cases h.1
    · exact absurd ((hcalled.kept h.1).2.symm.trans hgone) h.2
  · have hno : .close ∉ calls := fun h => hgone (hcalled.closed h).2
    obtain ⟨hvalid, hwatch⟩ := hcalled.kept hno
    have harm : s.subscribeThen e.place UNKNOWN ⟨.finishing, e :: es, pConn⟩ .leaving =
        (s.setConn e.place ((s.conn e.place).subscribe UNKNOWN).arm,
          ⟨.leaving, e :: es, pConn⟩, false) := by
      have hsub : ((s.conn e.place).subscribe UNKNOWN).watch ≠ .absent := hgone
      simp only [Service.subscribeThen, Service.subscribe, Service.epollMod, if_neg hsub]
      rfl
    rw [harm] at hstep
    refine goesCalls_step hstep (ends_step (by simp) rfl (ends_done _ (by simp) ?_))
    refine ⟨fun _ => ⟨hno, fun hc => hgone (hwatch.trans hc)⟩, fun _ => ⟨rfl, .inl ⟨?_, ?_⟩⟩⟩
    · rw [setMutex_conn, setConn_conn, if_pos rfl]
      exact hvalid.trans hv
    · rw [setMutex_conn, setConn_conn, if_pos rfl]
      exact ⟨_, rfl⟩

/-- A place with a complete request stays accounted for exactly when the listener does not
close its connection, provided that epoll knows it. -/
theorem listener_accounted_iff (i : ℕ) (x : Input) (calls : List Call) (s : Service) (e : Event)
    (es : List Event) (pConn : ℕ) (hv : (s.conn e.place).valid = true)
    (hm : s.mutex e.place = none) (hin : e.isIn = true)
    (hreq : (tryReadRequest { s.conn e.place with start := s.now } x.script.reads).2 = none) :
    ∃ r, Worker.handleCalls i x calls 5 s ⟨.looping, e :: es, pConn⟩ = some r ∧
      (Accounted e.place r ↔ .close ∉ calls ∧ (s.conn e.place).watch ≠ .absent) := by
  let c : HttpConnection := { s.conn e.place with start := s.now }
  let c' := (tryReadRequest c x.script.reads).1
  have hsame : SameSocket c c' := tryReadRequest_same c x.script.reads
  have hread : tryReadRequest c x.script.reads = (c', none) := Prod.ext rfl hreq
  let s₁ := s.setMutex e.place (some (.worker i))
  let s₂ := s₁.resetLastActivityTime e.place x.stray
  have hconn₂ : s₂.conn e.place = c := by
    rw [reset_conn, if_pos rfl, setMutex_conn]
    rfl
  let s₃ := s₂.setConn e.place (onRequestCalls c' calls)
  have hconn₃ : s₃.conn e.place = onRequestCalls c' calls := by rw [setConn_conn, if_pos rfl]
  have hcalled := onRequestCalls_called calls c'
  have hloop : Worker.stepCalls i x calls s ⟨.looping, e :: es, pConn⟩ =
      some (s₁, ⟨.entered, e :: es, (s.conn e.place).id⟩, false) := by
    simp only [Worker.stepCalls, Worker.step, hm, hv, if_true]
    rfl
  have henter : Worker.stepCalls i x calls s₁ ⟨.entered, e :: es, (s.conn e.place).id⟩ =
      some (s₂, ⟨.serving, e :: es, (s.conn e.place).id⟩, false) := rfl
  have hserved : serveCalls c e x.script calls = (onRequestCalls c' calls, .finish) := by
    rw [serveCalls, if_pos hin, hread]
  have hserve : Worker.stepCalls i x calls s₂ ⟨.serving, e :: es, (s.conn e.place).id⟩ =
      some (s₃, ⟨.finishing, e :: es, (s.conn e.place).id⟩, false) := by
    simp only [Worker.stepCalls, Worker.serveStepCalls, hconn₂, hserved, reduceCtorEq, if_false]
    rfl
  have hgoes : GoesCalls i x calls e es 5 (s, ⟨.looping, e :: es, pConn⟩, false)
      (fun r => Accounted e.place r ↔ .close ∉ calls ∧ c'.watch ≠ .absent) := by
    refine goesCalls_step hloop (goesCalls_step henter (goesCalls_step hserve ?_))
    apply finishing_accounted (n := 0)
    · rw [hconn₃]
      exact hcalled
    · rw [hconn₃]
      exact onRequestCalls_option calls c'
    · rw [hconn₃, hcalled.id, hsame.id]
    · rw [hsame.valid]
      exact hv
  rw [hsame.watch] at hgoes
  exact hgoes

end Handle

/-- A client connects and asks, and a worker fetches the event. -/
def askRun : List Act := accepts 8 ++ [.raise 0 ⟨0, 0, true, false⟩] ++ works 0 1

def askInput : Input :=
  { plainInput with script := ⟨[.data (oneRead (lit "GET / HTTP/1.1\r\n\r\n"))], [], []⟩ }

/-- What a listener answers. -/
def okResponce : Responce := ⟨lit "1.1", 200, lit "OK", [], []⟩

theorem asked : ∃ σ, (System.start 20 60).run askRun = some σ ∧
    σ.worker 0 = ⟨.looping, [⟨0, 0, true, false⟩], 0⟩ ∧ (σ.service.conn 0).valid = true ∧
      σ.service.mutex 0 = none ∧ (σ.service.conn 0).watch ≠ .absent ∧
        (tryReadRequest { σ.service.conn 0 with start := σ.service.now }
          askInput.script.reads).2 = none := by
  have hrun : ((System.start 20 60).run askRun).map (fun σ =>
      decide ((σ.worker 0).pc = .looping ∧ (σ.worker 0).events = [⟨0, 0, true, false⟩] ∧
        (σ.worker 0).pConn = 0 ∧ (σ.service.conn 0).valid = true ∧ σ.service.mutex 0 = none ∧
        (σ.service.conn 0).watch ≠ .absent ∧ (tryReadRequest
          { σ.service.conn 0 with start := σ.service.now } askInput.script.reads).2 = none)) =
      some true := by
    decide +kernel
  obtain ⟨σ, hσ, hpoint⟩ := Option.map_eq_some_iff.mp hrun
  obtain ⟨hpc, hevents, hpConn, hrest⟩ := of_decide_eq_true hpoint
  refine ⟨σ, hσ, ?_, hrest⟩
  cases hw : σ.worker 0 with
  | mk pc events pConn =>
    rw [hw] at hpc hevents hpConn
    dsimp only at hpc hevents hpConn
    rw [hpc, hevents, hpConn]

theorem listener_accounted_reply : ∃ σ r, (System.start 20 60).run askRun = some σ ∧
    Worker.handleCalls 0 askInput [.request, .write okResponce] 5 σ.service (σ.worker 0) = some r ∧
      Accounted 0 r := by
  obtain ⟨σ, hσ, hw, hv, hm, hwatch, hreq⟩ := asked
  obtain ⟨r, hr, hiff⟩ := listener_accounted_iff 0 askInput [.request, .write okResponce] σ.service
    ⟨0, 0, true, false⟩ [] 0 hv hm rfl hreq
  exact ⟨σ, r, hσ, hw ▸ hr, hiff.mpr ⟨by decide, hwatch⟩⟩

/-- The listener answers and closes: the exception of epoll leaves the loop. -/
theorem closing_listener_throws : ∃ σ r, (System.start 20 60).run askRun = some σ ∧
    Worker.handleCalls 0 askInput [.write okResponce, .close] 5 σ.service (σ.worker 0) = some r ∧
      r.2.2 = true ∧ (r.1.conn 0).valid = false ∧ r.1.closed = [] := by
  have hrun : (((System.start 20 60).run askRun).bind fun σ =>
      Worker.handleCalls 0 askInput [.write okResponce, .close] 5 σ.service (σ.worker 0)).map
        (fun r => decide (r.2.2 = true ∧ (r.1.conn 0).valid = false ∧ r.1.closed = [])) =
      some true := by
    decide +kernel
  obtain ⟨r, hr, hpoint⟩ := Option.map_eq_some_iff.mp hrun
  obtain ⟨σ, hσ, hr⟩ := Option.bind_eq_some_iff.mp hr
  exact ⟨σ, r, hσ, hr, of_decide_eq_true hpoint⟩

end Sphere.Http
