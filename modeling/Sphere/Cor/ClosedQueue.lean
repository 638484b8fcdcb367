import Sphere.Cor.System
import Sphere.Http.ClosedQueue

/-! The queue of closed places of `CoroutineService`. Its threads are threads of the
slot pool as long as no worker enters the function of a routine that serves another
place than that of the event in hand, or goes on in the context of another worker. -/

namespace Sphere.Cor

open Lib Net Http SlotPool Relation

def Worker.stage (w : Worker) : Stage :=
  match w.pc, w.events with
  | .waiting, _ | .looping, _ | _, [] => .idle
  | .pushing _ _, e :: _ => .saw e.place
  | .shutting _ _, e :: _ => .queued e.place
  | _, e :: _ => .holding e.place

/-- Inside its function the routine serves the place of the event, and inside
`close_client` the connection that was fetched is still the place's. -/
def Worker.Placed (s : Service) (w : Worker) : Prop :=
  match w.pc, w.events with
  | .waiting, _ | .looping, _ | .entered, _ | .resuming, _ | .leaving, _ | .astray _, _
  | _, [] => True
  | .pushing c _, e :: _ | .shutting c _, e :: _ =>
    w.place = e.place ∧ (s.conn e.place).id = c
  | _, e :: _ => w.place = e.place

/-- Where the worker is to resume a routine, that does not take it into the function of
another place. -/
def Worker.resumesOwn (st : State) (w : Worker) : Bool :=
  match w.pc, w.events, st.main.routines[w.routine]? with
  | .resuming, e :: _, some routine =>
    routine.finished || routine.ctx = .returned || routine.func = e.place
  | _, _, _ => true

section Serving

variable {i : ℕ} {x : Input} {f : Thread → Stage} {st st' : State} {w w' : Worker} {out : Bool}
  {e : Event} {es : List Event} {P : Prop}

/-- A step of serving changes nothing the pool sees, the identity of no connection, and
leaves the worker with the place of the event; that is the place it serves if `P`. -/
structure Serves (P : Prop) (e : Event) (st st' : State) (w' : Worker) : Prop where
  unseen : Unseen st.service st'.service
  id : ∀ q, (st'.service.conn q).id = (st.service.conn q).id
  stage : w'.stage = .holding e.place
  placed : P → w'.Placed st'.service

theorem stop_service (st : State) (r : ℕ) (out : Stop Point Failure) :
    (st.stop r out).service = st.service := by
  unfold State.stop
  split <;> rfl

/-- What leaves the connections alone, with the worker still in the function. -/
theorem serves_on {w' : Worker} (h : st'.service = st.service) (hs : w'.stage = .holding e.place)
    (hp : P → w'.Placed st'.service) : Serves P e st st' w' :=
  ⟨h ▸ .refl _, fun _ => by rw [h], hs, hp⟩

theorem serves_setConn {p : ℕ} {c : HttpConnection} (h : SameSocket (st.service.conn p) c)
    (hs : Serves P e (st.setConn p c) st' w') : Serves P e st st' w' :=
  ⟨(unseen_setConn st.service h.valid).trans hs.unseen,
    fun q => (hs.id q).trans (setConn_id h.id q), hs.stage, hs.placed⟩

theorem throw_serves (he : w.events = e :: es) (hpc : w.pc = .reading ∨ w.pc = .writing ∨
    ∃ ms k, w.pc = .modding ms k) (err : Failure) :
    Serves (w.place = e.place) e st (w.throw st err).1 (w.throw st err).2.1 := by
  refine serves_on (stop_service ..) ?_ fun hp => ?_
  · rcases hpc with hpc | hpc | ⟨ms, k, hpc⟩ <;> simp [Worker.throw, Worker.stage, hpc, he]
  · rcases hpc with hpc | hpc | ⟨ms, k, hpc⟩ <;> simp [Worker.throw, Worker.Placed, hpc, he, hp]

theorem readEnd_serves (he : w.events = e :: es) (hpc : w.pc = .reading) (next : Next) :
    Serves (w.place = e.place) e st (w.readEnd st next).1 (w.readEnd st next).2.1 := by
  cases next with
  | thrown err => exact throw_serves he (.inl hpc) _
  | undefined =>
    exact serves_on rfl (by simp [Worker.readEnd, Worker.stage, hpc, he])
      fun hp => by simp [Worker.readEnd, Worker.Placed, hpc, he, hp]
  | _ =>
    exact serves_on rfl (by simp [Worker.readEnd, Worker.stage, he])
      fun hp => by simp [Worker.readEnd, Worker.Placed, he, hp]

theorem read_serves (he : w.events = e :: es) (hpc : w.pc = .reading) :
    Serves (w.place = e.place) e st (w.readStep x st).1 (w.readStep x st).2.1 := by
  have hread := tryReadRequest_same (st.service.conn w.place) x.reads
  unfold Worker.readStep
  dsimp only
  split
  · split <;> rename_i h <;> rw [h] at hread
    · exact serves_setConn hread (readEnd_serves he hpc _)
    · exact serves_setConn hread (readEnd_serves he hpc _)
    · refine serves_setConn (hread.trans (e := answer _ x.reply) ⟨rfl, rfl, rfl, rfl⟩) ?_
      exact serves_on rfl (by simp [Worker.stage, he]) (by simp [Worker.Placed, he])
  · exact readEnd_serves he hpc _

theorem write_serves (he : w.events = e :: es) (hpc : w.pc = .writing) :
    Serves (w.place = e.place) e st (w.writeStep x st).1 (w.writeStep x st).2.1 := by
  have hwrite := tryWriteResponce_same x.writes (st.service.conn w.place)
  unfold Worker.writeStep
  dsimp only
  split
  · split <;> rename_i h <;> rw [h] at hwrite
    · refine serves_setConn hwrite (serves_on rfl ?_ ?_) <;>
        simp [Worker.stage, Worker.Placed, he]
    · split <;> refine serves_setConn hwrite (serves_on rfl ?_ ?_) <;>
        simp [Worker.stage, Worker.Placed, he]
    · exact serves_setConn hwrite (throw_serves he (.inr (.inl hpc)) _)
    · refine serves_setConn hwrite (serves_on rfl ?_ ?_) <;>
        simp [Worker.stage, Worker.Placed, he]
  · split
    · exact throw_serves he (.inr (.inl hpc)) _
    · refine serves_on rfl ?_ ?_ <;> simp [Worker.stage, Worker.Placed, he, hpc]
    · refine serves_on rfl ?_ ?_ <;> simp [Worker.stage, Worker.Placed, he]
    · refine serves_on rfl ?_ ?_ <;> simp [Worker.stage, Worker.Placed, he]
    · refine serves_on rfl ?_ ?_ <;> simp [Worker.stage, Worker.Placed, he]

theorem enter_serves (he : w.events = e :: es) :
    Serves True e st (w.enterStep i x st e).1 (w.enterStep i x st e).2 := by
  unfold Worker.enterStep
  dsimp only
  split
  · refine serves_on rfl ?_ ?_ <;> simp [Worker.stage, Worker.Placed, he]
  · have hid : (if (st.service.conn e.place).id = w.pConn then
        { st.service.conn e.place with routine := some (st.main.create e.place).2 }
        else st.service.conn e.place).id = (st.service.conn e.place).id := by
      split <;> rfl
    refine ⟨unseen_setConn st.service ?_, setConn_id hid, ?_, ?_⟩
    · split <;> rfl
    · simp [Worker.stage, he]
    · simp [Worker.Placed]

/-- `resume` stays away from the queue of places, whatever it does to the routines. -/
theorem resume_serves (he : w.events = e :: es) (hpc : w.pc = .resuming) :
    Serves (w.resumesOwn st = true) e st (w.resumeStep i st).1 (w.resumeStep i st).2.1 := by
  unfold Worker.resumeStep
  split
  · refine serves_on rfl ?_ ?_ <;> simp [Worker.stage, Worker.Placed, he, hpc]
  · rename_i routine hget
    have hfunc : routine.finished = false → routine.ctx ≠ .returned → w.resumesOwn st = true →
        routine.func = e.place := by
      intro hfin hctx hr
      simpa [Worker.resumesOwn, hpc, he, hget, hfin, hctx] using hr
    dsimp only
    split_ifs with hfin
    · refine serves_on rfl ?_ ?_ <;> simp [Worker.stage, Worker.Placed, he]
    · have hfin : routine.finished = false := by simpa using hfin
      split <;> rename_i hctx
      · refine serves_on rfl ?_ (fun hr => ?_)
        · simp [Worker.stage, he]
        · simp [Worker.Placed, he, hfunc hfin (by simp [hctx]) hr]
      · refine serves_on rfl ?_ (fun hr => ?_)
        · simp [Worker.stage, he]
        · simp [Worker.Placed, he, hfunc hfin (by simp [hctx]) hr]
      · refine serves_on rfl ?_ (fun hr => ?_)
        · simp [Worker.stage, he]
        · simp [Worker.Placed, he, hfunc hfin (by simp [hctx]) hr]
      · refine serves_on rfl ?_ (fun hr => ?_)
        · simp [Worker.stage, he]
        · simp [Worker.Placed, he, hfunc hfin (by simp [hctx]) hr]
      · unfold Worker.entryStep
        dsimp only
        split <;> refine serves_on rfl ?_ ?_ <;> simp [Worker.stage, Worker.Placed, he]

theorem start_serves (he : w.events = e :: es) :
    Serves (w.place = e.place) e st (w.startStep x st).1 (w.startStep x st).2.1 := by
  refine ⟨unseen_reset _ _ _, fun q => ?_, ?_, ?_⟩
  · refine (congrArg (fun c : HttpConnection => c.id) ((shiftToBack_only _ _ _).conn q)).trans ?_
    exact setConn_id (c := { st.service.conn w.place with start := st.service.now }) rfl q
  · simp [Worker.startStep, Worker.stage, he]
  · simp [Worker.startStep, Worker.Placed, he]

theorem mod_serves {ms : List Mod} {k : Then} (he : w.events = e :: es)
    (hpc : w.pc = .modding ms k) :
    Serves (w.place = e.place) e st (w.modStep i st ms k).1 (w.modStep i st ms k).2.1 := by
  unfold Worker.modStep
  split
  · rename_i m ms
    have hm : ∀ c : HttpConnection, (m.apply c).valid = c.valid ∧ (m.apply c).id = c.id := by
      intro c
      cases m <;> exact ⟨rfl, rfl⟩
    split
    · rename_i s hs
      refine ⟨unseen_epollMod (hm _).1 hs, epollMod_id (hm _).2 hs, ?_, ?_⟩
      · simp [Worker.stage, he]
      · simp [Worker.Placed, he]
    · exact throw_serves he (.inr (.inr ⟨_, _, hpc⟩)) _
  · split
    · unfold Worker.yieldStep
      split
      · refine serves_on (stop_service ..) ?_ ?_ <;> simp [Worker.stage, Worker.Placed, he]
      · refine serves_on rfl ?_ ?_ <;> simp [Worker.stage, Worker.Placed, he, hpc]
    · refine serves_on rfl ?_ ?_ <;> simp [Worker.stage, Worker.Placed, he]
    · refine serves_on (stop_service ..) ?_ ?_ <;> simp [Worker.stage, Worker.Placed, he]

theorem finish_serves (he : w.events = e :: es) :
    Serves (w.place = e.place) e st (w.finishStep x st).1 (w.finishStep x st).2.1 := by
  unfold Worker.finishStep Worker.dropRoutine
  split
  · refine serves_on rfl ?_ ?_ <;> simp [Worker.stage, Worker.Placed, he]
  · split
    · refine ⟨unseen_setConn _ rfl, ?_, ?_, ?_⟩
      · exact setConn_id (c := { st.service.conn w.place with routine := none }) rfl
      · simp [Worker.stage, he]
      · simp [Worker.Placed, he]
    · refine serves_on rfl ?_ ?_ <;> simp [Worker.stage, Worker.Placed, he]

/-- A worker moves as a thread of the pool does, changes the identity of no connection
and stays with the place of the event in hand. -/
structure Moves (i : ℕ) (f : Thread → Stage) (st st' : State) (w' : Worker) : Prop where
  pool : ReflTransGen AnyStep (st.service.pool f)
    (st'.service.pool (Function.update f (.worker i) w'.stage))
  id : ∀ q, (st'.service.conn q).id = (st.service.conn q).id
  placed : w'.Placed st'.service

theorem Serves.moves (h : Serves P e st st' w') (hP : P)
    (hf : f (.worker i) = .holding e.place) : Moves i f st st' w' := by
  refine ⟨?_, h.id, h.placed hP⟩
  rw [h.stage]
  exact pool_unseen h.unseen hf

/-- The worker runs its loop or a routine, and leaves the mutexes alone. -/
def Worker.serving (w : Worker) : Prop :=
  match w.pc with
  | .entered | .resuming | .starting | .reading | .writing | .modding _ _ | .finishing => True
  | _ => False

/-- Whether the worker serves the place of the event after its next step. -/
def Worker.servesOwn (st : State) (w : Worker) (e : Event) : Prop :=
  match w.pc with
  | .entered => True
  | .resuming => w.resumesOwn st = true
  | _ => w.place = e.place

theorem Worker.step_serves (h : w.step i x st = some (st', w', out)) (he : w.events = e :: es)
    (hs : w.serving) : Serves (w.servesOwn st e) e st st' w' := by
  obtain ⟨pc, events, pConn, routine, place⟩ := w
  obtain rfl : events = e :: es := he
  cases pc with
  | entered =>
    have hstep : Serves True e st
        (enterStep i x st ⟨.entered, e :: es, pConn, routine, place⟩ e).1 _ :=
      enter_serves rfl
    simp only [Worker.step, Option.some.injEq, Prod.mk.injEq] at h
    rwa [h.1, h.2.1] at hstep
  | resuming =>
    have hstep : Serves _ e st (resumeStep i st ⟨.resuming, e :: es, pConn, routine, place⟩).1 _ :=
      resume_serves rfl rfl
    rwa [Option.some.inj h] at hstep
  | starting =>
    have hstep : Serves _ e st (startStep x st ⟨.starting, e :: es, pConn, routine, place⟩).1 _ :=
      start_serves rfl
    rwa [Option.some.inj h] at hstep
  | reading =>
    have hstep : Serves _ e st (readStep x st ⟨.reading, e :: es, pConn, routine, place⟩).1 _ :=
      read_serves rfl rfl
    rwa [Option.some.inj h] at hstep
  | writing =>
    have hstep : Serves _ e st (writeStep x st ⟨.writing, e :: es, pConn, routine, place⟩).1 _ :=
      write_serves rfl rfl
    rwa [Option.some.inj h] at hstep
  | modding ms k =>
    have hstep : Serves _ e st
        (modStep i st ⟨.modding ms k, e :: es, pConn, routine, place⟩ ms k).1 _ :=
      mod_serves rfl rfl
    rwa [show modStep _ _ _ _ _ = _ from Option.some.inj h] at hstep
  | finishing =>
    have hstep : Serves _ e st (finishStep x st ⟨.finishing, e :: es, pConn, routine, place⟩).1 _ :=
      finish_serves rfl
    rwa [Option.some.inj h] at hstep
  | _ => exact hs.elim

theorem Worker.step_moves (h : w.step i x st = some (st', w', out))
    (hf : f (.worker i) = w.stage) (hp : w.Placed st.service) (hr : w.resumesOwn st = true) :
    Moves i f st st' w' := by
  obtain ⟨pc, events, pConn, routine, place⟩ := w
  cases events with
  | nil =>
    cases pc <;> cases h <;> exact ⟨pool_unseen (.refl _) hf, fun _ => rfl, trivial⟩
  | cons e es =>
    cases pc with
    | waiting =>
      cases h
      exact ⟨pool_unseen (.refl _) hf, fun _ => rfl, trivial⟩
    | looping =>
      simp only [Worker.step] at h
      split at h <;> rename_i hm <;> cases h
      refine ⟨.single ⟨.worker i, ?_⟩, fun q => ?_, trivial⟩
      · rw [pool_setMutex]
        exact Step.lock (st.service.pool f) e.place hf hm
      · exact congrArg (fun c : HttpConnection => c.id) (setMutex_conn ..)
    | entered => exact (Worker.step_serves h rfl trivial).moves trivial hf
    | resuming => exact (Worker.step_serves h rfl trivial).moves hr hf
    | starting | reading | writing | modding _ _ | finishing =>
      exact (Worker.step_serves h rfl trivial).moves hp hf
    | checking k =>
      obtain rfl : place = e.place := hp
      simp only [Worker.step] at h
      split at h <;> rename_i hv <;> cases h
      · exact ⟨.single ⟨.worker i, Step.see (st.service.pool f) e.place hf hv⟩, fun _ => rfl,
          rfl, rfl⟩
      · exact ⟨pool_unseen (.refl _) hf, fun _ => rfl, rfl⟩
    | pushing c k =>
      obtain ⟨rfl, hid⟩ : place = e.place ∧ (st.service.conn e.place).id = c := hp
      simp only [Worker.step] at h
      split at h <;> rename_i hm <;> cases h
      exact ⟨.single ⟨.worker i, Step.queue (st.service.pool f) e.place hf hm⟩, fun _ => rfl,
        rfl, hid⟩
    | shutting c k =>
      obtain ⟨rfl, hid⟩ : place = e.place ∧ (st.service.conn e.place).id = c := hp
      simp only [Worker.step, hid, if_true] at h
      cases h
      refine ⟨.single ⟨.worker i, ?_⟩, ?_, rfl⟩
      · convert Step.shutQueued (st.service.pool f) e.place hf using 1
        exact Pool.ext rfl (funext fun q => valid_setConn st.service e.place q _) rfl rfl
          (funext fun q => setConn_mutex ..) rfl
      · exact setConn_id (c := (st.service.conn e.place).close) rfl
    | leaving =>
      cases h
      refine ⟨.single ⟨.worker i, ?_⟩, fun q => ?_, trivial⟩
      · rw [show Worker.stage _ = .idle from rfl, pool_setMutex]
        exact Step.unlock (st.service.pool f) e.place hf
      · exact congrArg (fun c : HttpConnection => c.id) (setMutex_conn ..)
    | astray c => cases h

end Serving

theorem Worker.Placed.other {s s' : Service} {w : Worker} (hw : w.Placed s)
    (h : ∀ q, w.stage = .saw q ∨ w.stage = .queued q → (s'.conn q).id = (s.conn q).id) :
    w.Placed s' := by
  obtain ⟨pc, events, pConn, routine, place⟩ := w
  cases events with
  | nil => cases pc <;> trivial
  | cons e es =>
    cases pc with
    | pushing c k => exact ⟨hw.1, (h e.place (.inl rfl)).trans hw.2⟩
    | shutting c k => exact ⟨hw.1, (h e.place (.inr rfl)).trans hw.2⟩
    | _ => exact hw

/-! The whole service. -/

def System.stage (σ : System) : Thread → Stage
  | .acceptor => σ.acceptor.stage true
  | .worker i => (σ.worker i).stage

def System.pool (σ : System) : Pool Thread := σ.state.service.pool σ.stage

/-- No worker enters the function of a routine that serves another place than that of
the event the worker has in hand, and none goes on in the context of another. -/
def ResumesOwn (σ : System) : Act → Prop
  | .worker i _ => (σ.worker i).resumesOwn σ.state = true
  | .stray _ => False
  | _ => True

instance (σ : System) (a : Act) : Decidable (ResumesOwn σ a) :=
  match a with
  | .worker _ _ => inferInstanceAs (Decidable (_ = true))
  | .stray _ => .isFalse id
  | .acceptor _ | .clock _ | .raise _ _ => .isTrue trivial

structure System.Closes (σ : System) : Prop where
  pool : Inv σ.pool
  placed : ∀ i, (σ.worker i).Placed σ.state.service

theorem System.stage_acceptor (σ : System) (s : Service) (a : Acceptor) :
    System.stage { σ.setService s with acceptor := a } =
      Function.update σ.stage .acceptor (a.stage true) := by
  funext t
  cases t <;> simp [System.stage, System.setService]

theorem System.stage_worker (σ : System) (st : State) (i : ℕ) (w : Worker) (b : Bool) :
    System.stage { σ with state := st, worker := Function.update σ.worker i w, halted := b } =
      Function.update σ.stage (.worker i) w.stage := by
  funext t
  cases t with
  | acceptor => simp [System.stage]
  | worker j => by_cases hj : j = i <;> simp [System.stage, hj]

theorem System.stage_raise (σ : System) (s : Service) (i : ℕ) (w : Worker) :
    System.stage { σ.setService s with worker := Function.update σ.worker i w } =
      Function.update σ.stage (.worker i) w.stage :=
  System.stage_worker σ _ i w σ.halted

/-- Where a worker relies on the connection of a place, the connection is open. -/
theorem System.Closes.opened {σ : System} (hi : σ.Closes) {i p : ℕ}
    (hp : (σ.worker i).stage = .saw p ∨ (σ.worker i).stage = .queued p) :
    (σ.state.service.conn p).valid = true := by
  have hstage := hi.pool.stage (.worker i)
  rw [show σ.pool.stage (.worker i) = (σ.worker i).stage from rfl] at hstage
  rcases hp with hp | hp <;> rw [hp] at hstage
  · exact hstage.2
  · exact hstage.2.2.2

theorem System.Closes.step {σ σ' : System} {a : Act} (hi : σ.Closes) (hm : ResumesOwn σ a)
    (h : σ.step a = some σ') : σ'.Closes := by
  cases System.step_acts h with
  | acceptor hs =>
    refine ⟨?_, fun i => (hi.placed i).other fun q hq => ?_⟩
    · unfold System.pool
      rw [System.stage_acceptor]
      exact hi.pool.reaches (Acceptor.step_pool hs rfl)
    · exact (Acceptor.step_carries hs hi.pool q).id_eq (hi.opened hq)
  | @worker i x st w out hs =>
    have hmoves : Moves i σ.stage σ.state st w := Worker.step_moves hs rfl (hi.placed i) hm
    refine ⟨?_, fun j => ?_⟩
    · unfold System.pool
      rw [System.stage_worker]
      exact hi.pool.reaches hmoves.pool
    · by_cases hj : j = i
      · subst hj
        simpa using hmoves.placed
      · simpa [hj] using (hi.placed j).other fun q _ => hmoves.id q
  | taken | clock => exact ⟨hi.pool, hi.placed⟩
  | @raise i e s hpc hs =>
    obtain ⟨hu, hid⟩ := raise_same hs
    refine ⟨?_, fun j => ?_⟩
    · unfold System.pool
      rw [System.stage_raise]
      refine hi.pool.reaches (pool_unseen hu ?_)
      simp [System.stage, Worker.stage, hpc]
    · by_cases hj : j = i
      · subst hj
        simp [Worker.Placed, hpc]
      · simpa [hj, System.setService] using (hi.placed j).other fun q _ => hid q
  | stray => exact hm.elim

theorem System.start_closes (connTimeo kaConnTimeo : ℕ) :
    (System.start connTimeo kaConnTimeo).Closes := by
  refine ⟨⟨List.nodup_nil, ?_, ?_, ?_, ?_⟩, fun i => trivial⟩
  · intro p hp
    cases hp
  · intro p hp
    cases hp
  · intro t
    cases t <;> trivial
  · intro p hp
    cases hp

def plainInput : Input :=
  ⟨[], [.wrote 1000], ⟨lit "1.1", 200, lit "OK", [], []⟩, .finish, false, none, .empty⟩

def accepts (n : ℕ) : List Act := List.replicate n (.acceptor ⟨true, .empty⟩)

def works (i n : ℕ) : List Act := List.replicate n (.worker i plainInput)

/-- The worker reads `bytes`, the end of the stream if there are none. -/
def reads (i : ℕ) (bytes : {b : List UInt8 // b.length ≤ BUF_SIZE}) : List Act :=
  [.worker i { plainInput with reads := [.data bytes] }]

/-- A client connects and closes its end. -/
def eofRun : List Act :=
  accepts 8 ++ [.raise 0 ⟨0, 0, true, false⟩] ++ works 0 5 ++ reads 0 (oneRead []) ++ works 0 5

end Sphere.Cor
