import Sphere.Cor.Resting
import Sphere.Http.Handling

/-! One event of an open connection, from the worker's loop back to it, with no other
thread in between: as a function of the connection and of where its routine waits it is
`handled`. -/

namespace Sphere.Cor

open Lib Net Http SlotPool Settle

/-- What serving an event makes of the connection and of its routine, which is gone with
`none`, and whether an exception leaves the loop. -/
structure Outcome where
  conn : HttpConnection
  stage : Option Point
  out : Bool

/-- The end of `serve_client`. -/
def serveEnd (c : HttpConnection) : Outcome :=
  if c.epollOption = ET_ONESHOT then ⟨if c.valid then c.close else c, none, false⟩
  else ⟨({ c with routine := none }.subscribe UNKNOWN).arm, none, false⟩

def readNext (c : HttpConnection) : Next → Outcome
  | .thrown _ | .undefined => ⟨c, none, true⟩
  | .close _ => ⟨c.close, none, false⟩
  | .rearm => ⟨(c.subscribe READ).arm, some .reading, false⟩
  | .finish => serveEnd c

/-- A few calls on epoll. -/
def modAll (c : HttpConnection) (ms : List Mod) : HttpConnection :=
  ms.foldl (fun c m => (m.apply c).arm) c

def readHandled (c : HttpConnection) (x : Input) : Outcome :=
  match tryReadRequest c x.reads with
  | (c, some .undefined) => readNext c x.guess
  | (c, some next) => readNext c next
  | (c, none) => ⟨modAll (answer c x.reply) (answerMods c), some .replied, false⟩

def writeHandled (c : HttpConnection) (x : Input) : Outcome :=
  match tryWriteResponce c x.writes with
  | (c, .inr true) => serveEnd (c.unsubscribe WRITE).arm
  | (c, .inr false) =>
    if c.write = [] then serveEnd c else ⟨(c.subscribe WRITE).arm, some .writing, false⟩
  | (c, .inl (.thrown _)) => ⟨c, none, true⟩
  | (c, .inl _) => serveEnd c.close

def handled (c : HttpConnection) (now : ℤ) (x : Input) : Option Point → Outcome
  | none => readHandled { c with start := now } x
  | some .reading => readHandled c x
  | some .replied | some .writing => writeHandled c x

/-- The worker steps until it has no event left or an exception leaves it. -/
def Worker.handle (i : ℕ) (x : Input) (n : ℕ) (st : State) (w : Worker) : Option Stepped :=
  settle (fun r => r.2.1.step i x r.1) (fun r => r.2.2 || r.2.1.events.isEmpty) n (st, w, false)

/-- Routine `r` waits for place `p` in the `yield` at `k`. -/
structure Waits (st : State) (r p : ℕ) (k : Point) : Prop where
  routine : ∃ routine, st.main.routines[r]? = some routine ∧ routine.func = p ∧
    routine.finished = false ∧ routine.ctx = .yielded k
  serve : (st.frame r).serve = (st.service.conn p).id
  inner : k ≠ .replied → (st.frame r).inner = (st.service.conn p).id

/-- Where the routine of place `p` stands. -/
def Stands (st : State) (p : ℕ) : Option Point → Prop
  | none => (st.service.conn p).routine = none
  | some k => ∃ r, (st.service.conn p).routine = some r ∧ Waits st r p k

/-- The queue of finished routines holds routines. -/
def Queued (st : State) : Prop := ∀ r ∈ st.main.finished, r < st.main.routines.length

/-- Routine `r` is one of place `p`, or free. -/
def Own (st : State) (p r : ℕ) : Prop :=
  ∀ routine, st.main.routines[r]? = some routine → routine.func = p ∨ r ∈ st.main.finished

/-- While routine `r` runs for place `p`, whose connection is `c`, nothing else is touched. -/
structure Runs (p : ℕ) (st : State) (r : ℕ) (c : HttpConnection) (m : Option Thread)
    (closed : List ℕ) (st' : State) : Prop where
  service : Alters p st.service c m closed st'.service
  free : st'.service.closingMutex = none
  others : ∀ k, k ≠ r → st'.main.routines[k]? = st.main.routines[k]? ∧ st'.frame k = st.frame k
  routine : ∃ routine, st'.main.routines[r]? = some routine ∧ routine.func = p ∧
    routine.finished = false
  serve : (st'.frame r).serve = c.id
  queued : Queued st'

section Runs

variable {p r : ℕ} {st st' : State} {c : HttpConnection} {m : Option Thread} {closed : List ℕ}

theorem Runs.withService (h : Runs p st r c m closed st') {s : Service} {d : HttpConnection}
    {o : Option Thread} {l : List ℕ} (hs : Alters p st.service d o l s)
    (hf : s.closingMutex = none) (hid : d.id = c.id) :
    Runs p st r d o l { st' with service := s } :=
  ⟨hs, hf, h.others, h.routine, h.serve.trans hid.symm, h.queued⟩

theorem Runs.setConn (h : Runs p st r c m closed st') {d : HttpConnection} (hid : d.id = c.id) :
    Runs p st r d m closed (st'.setConn p d) :=
  h.withService (h.service.setConn d) h.free hid

theorem Runs.setFrame (h : Runs p st r c m closed st') {f : Frame} (hf : f.serve = c.id) :
    Runs p st r c m closed (st'.setFrame r f) := by
  refine ⟨h.service, h.free, fun k hk => ⟨(h.others k hk).1, ?_⟩, h.routine, ?_, h.queued⟩
  · exact (Function.update_of_ne hk _ _).trans (h.others k hk).2
  · rw [setFrame_self]
    exact hf

theorem Runs.stop (h : Runs p st r c m closed st') (out : Stop Point Failure) :
    Runs p st r c m closed (st'.stop r out) := by
  obtain ⟨routine, hget, hfunc, hfin⟩ := h.routine
  have hlen : r < st'.main.routines.length := (List.getElem?_eq_some_iff.mp hget).1
  obtain ⟨hf, hm⟩ := stop_func routine out
  rw [stop_eq hget]
  refine ⟨h.service, h.free, fun k hk => ⟨?_, (h.others k hk).2⟩,
    ⟨routine.stop out, (getElem?_update hlen r).trans (if_pos rfl), hf.trans hfunc, hm.trans hfin⟩,
    h.serve, fun k hk => ?_⟩
  · exact ((getElem?_update hlen k).trans (if_neg hk)).trans (h.others k hk).1
  · have hq := h.queued k hk
    simpa [MainOrdinator.update] using hq

theorem Runs.stops (h : Runs p st r c m closed st') (out : Stop Point Failure) :
    ∃ routine, (st'.stop r out).main.routines[r]? = some routine ∧ routine.func = p ∧
      routine.finished = false ∧ ∀ k, out = .yield k → routine.ctx = .yielded k := by
  obtain ⟨routine, hget, hfunc, hfin⟩ := h.routine
  have hlen : r < st'.main.routines.length := (List.getElem?_eq_some_iff.mp hget).1
  obtain ⟨hf, hm⟩ := stop_func routine out
  rw [stop_eq hget]
  refine ⟨routine.stop out, (getElem?_update hlen r).trans (if_pos rfl), hf.trans hfunc,
    hm.trans hfin, ?_⟩
  rintro k rfl
  rfl

end Runs

/-- The worker is back in its loop; routine `r` is the only one that has run. -/
structure Back (p : ℕ) (st : State) (r : ℕ) (o : Outcome) (closed : List ℕ) (res : Stepped) :
    Prop where
  stays : res.2.2 = false
  pc : res.2.1.pc = .looping
  events : res.2.1.events = []
  runs : Runs p st r o.conn none closed res.1
  stands : o.conn.valid = true → Stands res.1 p o.stage

/-- What comes of an event of place `p`, whose routine is `r`. -/
structure Served (i p : ℕ) (st : State) (r : ℕ) (o : Outcome) (res : Stepped) : Prop where
  stays : o.out = false →
    Back p st r o (if o.conn.valid then st.service.closed else st.service.closed ++ [p]) res
  leaves : o.out = true →
    res.2.2 = true ∧ Runs p st r o.conn (some (.worker i)) st.service.closed res.1

section Segments

variable {i n pConn r : ℕ} {x : Input} {st st' : State} {e : Event} {c : HttpConnection}
  {m : Option Thread} {closed : List ℕ} {stage : Option Point}

/-- From a program point of the worker on, with the event in hand. -/
abbrev Goes (i : ℕ) (x : Input) (n : ℕ) (res : Stepped) (P : Stepped → Prop) : Prop :=
  Settle.Ends (fun r : Stepped => r.2.1.step i x r.1)
    (fun r => r.2.2 || r.2.1.events.isEmpty) n res P

/-- The worker in the function of routine `r`. -/
abbrev inside (pc : Pc) (e : Event) (pConn r : ℕ) : Worker := ⟨pc, [e], pConn, r, e.place⟩

theorem leaving_goes (h : Runs e.place st r c m closed st')
    (hs : c.valid = true → Stands st' e.place stage) :
    Goes i x (n + 1) (st', inside .leaving e pConn r, false)
      (Back e.place st r ⟨c, stage, false⟩ closed) := by
  refine ends_step rfl rfl (ends_done _ rfl ⟨rfl, rfl, rfl,
    h.withService (h.service.setMutex none) h.free rfl, fun hv => ?_⟩)
  have hstands := hs hv
  cases stage with
  | none => exact (congrArg (fun c : HttpConnection => c.routine) (setMutex_conn ..)).trans hstands
  | some k =>
    obtain ⟨r, hr, hw⟩ := hstands
    refine ⟨r, (congrArg (fun c : HttpConnection => c.routine) (setMutex_conn ..)).trans hr,
      hw.routine, ?_, fun hk => ?_⟩
    · exact hw.serve.trans (congrArg (fun c : HttpConnection => c.id) (setMutex_conn ..)).symm
    · exact (hw.inner hk).trans (congrArg (fun c : HttpConnection => c.id) (setMutex_conn ..)).symm

/-- `serve_client` returns. -/
theorem ret_goes (h : Runs e.place st r c m closed st')
    (hr : c.valid = true → c.routine = none) :
    Goes i x (n + 2) (st', inside (.modding [] .ret) e pConn r, false)
      (Back e.place st r ⟨c, none, false⟩ closed) := by
  refine ends_step rfl rfl (leaving_goes (h.stop .ret) fun hv => ?_)
  show ((st'.stop r .ret).service.conn e.place).routine = none
  rw [(h.stop .ret).service.conn]
  exact hr hv

theorem yield_goes (h : Runs e.place st r c m closed st') (hcur : st'.current i = some r)
    (k : Point) (hr : c.routine = some r) (hin : k ≠ .replied → (st'.frame r).inner = c.id) :
    Goes i x (n + 2) (st', inside (.modding [] (.yield k)) e pConn r, false)
      (Back e.place st r ⟨c, some k, false⟩ closed) := by
  have hstep : Worker.step i x st' (inside (.modding [] (.yield k)) e pConn r) =
      some ((st'.setCurrent i none).stop r (.yield k), inside .leaving e pConn r, false) := by
    simp only [Worker.step, Worker.modStep, Worker.yieldStep, hcur, if_true]
  have hcleared : Runs e.place st r c m closed (st'.setCurrent i none) :=
    ⟨h.service, h.free, h.others, h.routine, h.serve, h.queued⟩
  have hstop := hcleared.stop (.yield k)
  obtain ⟨routine, hget, hfunc, hfin, hctx⟩ := hcleared.stops (.yield k)
  have hframe : ((st'.setCurrent i none).stop r (.yield k)).frame = st'.frame := by
    unfold State.stop
    split <;> rfl
  have hstands : Stands ((st'.setCurrent i none).stop r (.yield k)) e.place (some k) := by
    refine ⟨r, ?_, ⟨routine, hget, hfunc, hfin, hctx k rfl⟩, ?_, fun hk => ?_⟩
    · rw [hstop.service.conn]
      exact hr
    · rw [hstop.service.conn]
      exact hstop.serve
    · rw [hstop.service.conn, hframe]
      exact hin hk
  exact ends_step rfl hstep (leaving_goes hstop fun _ => hstands)

/-- One call on epoll. -/
theorem mod_step (h : Runs e.place st r c m closed st') (hw : c.watch ≠ .absent) (mod : Mod)
    (ms : List Mod) (k : Then) :
    Worker.step i x st' (inside (.modding (mod :: ms) k) e pConn r) =
      some (st'.setConn e.place (mod.apply c).arm, inside (.modding ms k) e pConn r, false) := by
  have hwatch : (mod.apply c).watch ≠ .absent := by cases mod <;> exact hw
  simp only [Worker.step, Worker.modStep, Service.epollMod, h.service.conn, hwatch, if_false]
  rfl

theorem mod_same (c : HttpConnection) (mod : Mod) :
    (mod.apply c).arm.id = c.id ∧ (mod.apply c).arm.valid = c.valid ∧
      (mod.apply c).arm.routine = c.routine ∧ (mod.apply c).arm.watch ≠ .absent := by
  cases mod <;> exact ⟨rfl, rfl, rfl, nofun⟩

theorem mods_goes {P : Stepped → Prop} (ms : List Mod) (k : Then)
    (h : Runs e.place st r c m closed st') (hw : c.watch ≠ .absent)
    (hk : ∀ st'', st''.frame = st'.frame → st''.current = st'.current →
      Runs e.place st r (modAll c ms) m closed st'' →
      Goes i x n (st'', inside (.modding [] k) e pConn r, false) P) :
    Goes i x (n + ms.length) (st', inside (.modding ms k) e pConn r, false) P := by
  induction ms generalizing c st' with
  | nil => exact hk st' rfl rfl h
  | cons mod ms ih =>
    obtain ⟨hid, -, -, hwatch⟩ := mod_same c mod
    exact ends_step rfl (mod_step h hw mod ms k) (ih (h.setConn hid) hwatch hk)

/-- A connection that is closed already is left alone. -/
theorem checking_goes_closed (h : Runs e.place st r c m closed st') (hv : c.valid = false) :
    Goes i x (n + 3) (st', inside (.checking .ret) e pConn r, false)
      (Back e.place st r ⟨c, none, false⟩ closed) := by
  have hstep : Worker.step i x st' (inside (.checking .ret) e pConn r) =
      some (st', inside (.modding [] .ret) e pConn r, false) := by
    simp [Worker.step, h.service.conn, hv]
  exact ends_step rfl hstep (ret_goes h fun hopen => absurd (hv.symm.trans hopen) (by simp))

/-- `close_client` of an open connection. -/
theorem checking_goes {P : Stepped → Prop} (h : Runs e.place st r c m closed st')
    (hv : c.valid = true) (k : Then)
    (hk : ∀ st'', Runs e.place st r c.close m (closed ++ [e.place]) st'' →
      Goes i x n (st'', inside (.modding [] k) e pConn r, false) P) :
    Goes i x (n + 3) (st', inside (.checking k) e pConn r, false) P := by
  have hcheck : Worker.step i x st' (inside (.checking k) e pConn r) =
      some (st', inside (.pushing c.id k) e pConn r, false) := by
    simp [Worker.step, h.service.conn, hv]
  have hpush : Worker.step i x st' (inside (.pushing c.id k) e pConn r) = some ({ st' with
      service := { st'.service with
        closed := st'.service.closed ++ [e.place], closingMutex := some (.worker i) } },
      inside (.shutting c.id k) e pConn r, false) := by
    simp [Worker.step, h.free]
  have hpushed := h.service.push (some (.worker i))
  have hclose : Worker.step i x { st' with service := { st'.service with
        closed := st'.service.closed ++ [e.place], closingMutex := some (.worker i) } }
      (inside (.shutting c.id k) e pConn r) = some ({ st' with
        service := { Service.setConn { st'.service with
          closed := st'.service.closed ++ [e.place], closingMutex := some (.worker i) } e.place
            c.close with closingMutex := none } }, inside (.modding [] k) e pConn r, false) := by
    simp only [Worker.step]
    rw [hpushed.conn, if_pos rfl]
  exact ends_step rfl hcheck (ends_step rfl hpush (ends_step rfl hclose
    (hk _ (h.withService ((hpushed.setConn c.close).lockClosing none) rfl rfl))))

theorem isOneshot_eq (h : Runs e.place st r c m closed st') (pc : Pc) :
    Worker.isOneshot x st' (inside pc e pConn r) = decide (c.epollOption = ET_ONESHOT) := by
  unfold Worker.isOneshot
  rw [h.service.conn, if_pos h.serve.symm]

theorem Back.served {p : ℕ} {res : Stepped} (i : ℕ)
    (h : Back p st r ⟨c, stage, false⟩
      (if c.valid then st.service.closed else st.service.closed ++ [p]) res) :
    Served i p st r ⟨c, stage, false⟩ res :=
  ⟨fun _ => h, fun hout => (by cases hout)⟩

/-- The end of `serve_client`, where the connection is open or just closed. -/
theorem finishing_goes (h : Runs e.place st r c m
      (if c.valid then st.service.closed else st.service.closed ++ [e.place]) st')
    (hopen : c.valid = true → c.watch ≠ .absent)
    (hshut : c.valid = false → c.epollOption = ET_ONESHOT) :
    Goes i x (n + 6) (st', inside .finishing e pConn r, false)
      (Served i e.place st r (serveEnd c)) := by
  unfold serveEnd
  by_cases ho : c.epollOption = ET_ONESHOT
  · have hstep : Worker.step i x st' (inside .finishing e pConn r) =
        some (st', inside (.checking .ret) e pConn r, false) := by
      simp only [Worker.step, Worker.finishStep, isOneshot_eq h, ho, decide_true, if_true]
    rw [if_pos ho]
    by_cases hv : c.valid = true
    · rw [if_pos hv] at h ⊢
      exact ends_step rfl hstep (checking_goes (n := n + 2) h hv .ret fun st'' hc =>
        (ret_goes hc fun hv' => (by cases hv')).imp fun _ hb => hb.served i)
    · rw [if_neg hv]
      exact ends_step rfl hstep ((checking_goes_closed (n := n + 2) h (by simpa using hv)).imp
        fun _ hb => hb.served i)
  · have hv : c.valid = true := by
      by_contra hv
      exact ho (hshut (by simpa using hv))
    rw [if_neg ho]
    rw [if_pos hv] at h
    have hstep : Worker.step i x st' (inside .finishing e pConn r) =
        some (st'.setConn e.place { c with routine := none },
          inside (.modding [.subscribe UNKNOWN] .ret) e pConn r, false) := by
      simp only [Worker.step, Worker.finishStep, isOneshot_eq h, ho, decide_false,
        Bool.false_eq_true, if_false, Worker.dropRoutine, h.service.conn, h.serve, if_true]
    refine ends_step rfl hstep (mods_goes (n := n + 4) [.subscribe UNKNOWN] .ret
      (h.setConn (d := { c with routine := none }) rfl) (hopen hv) fun st'' _ _ hm => ?_)
    refine (ret_goes (n := n + 2) hm fun _ => rfl).imp fun _ hb => Back.served i ?_
    rw [if_pos (by exact hv)]
    exact hb

/-- What holds of the connection from `reading` and `writing` on. -/
structure Open (r : ℕ) (c : HttpConnection) : Prop where
  valid : c.valid = true
  watch : c.watch ≠ .absent
  routine : c.routine = some r

theorem Open.same {c' : HttpConnection} (h : Open r c) (hc : SameSocket c c') : Open r c' :=
  ⟨hc.valid.trans h.valid, by rw [hc.watch]; exact h.watch, hc.routine.trans h.routine⟩

theorem throw_goes (h : Runs e.place st r c (some (.worker i)) st.service.closed st') {t : State}
    {pc : Pc} (hstep : Worker.step i x t (inside pc e pConn r) =
      some ((inside pc e pConn r).throw st' err)) :
    Goes i x (n + 1) (t, inside pc e pConn r, false) (Served i e.place st r ⟨c, none, true⟩) :=
  ends_step rfl hstep (ends_done _ rfl
    ⟨fun hout => (by cases hout), fun _ => ⟨rfl, h.stop (.throw err)⟩⟩)

theorem readEnd_goes {t : State}
    (h : Runs e.place st r c (some (.worker i)) st.service.closed st') (ho : Open r c)
    (hcur : st'.current i = some r) (hin : (st'.frame r).inner = c.id) (next : Next)
    (hstep : Worker.step i x t (inside .reading e pConn r) =
      some ((inside .reading e pConn r).readEnd st' next)) :
    Goes i x (n + 7) (t, inside .reading e pConn r, false)
      (Served i e.place st r (readNext c next)) := by
  cases next with
  | thrown err => exact throw_goes h hstep
  | undefined =>
    exact ends_step rfl hstep (ends_done _ rfl
      ⟨fun hout => (by cases hout), fun _ => ⟨rfl, h⟩⟩)
  | close k =>
    exact ends_step rfl hstep (checking_goes (n := n + 3) h ho.valid .ret fun st'' hc =>
      (ret_goes hc fun hv => (by cases hv)).imp fun _ hb => hb.served i)
  | rearm =>
    refine ends_step rfl hstep (mods_goes (n := n + 5) [.subscribe READ] (.yield .reading) h
      ho.watch fun st'' hf hc hm => ?_)
    refine (yield_goes (n := n + 3) hm (hc ▸ hcur) .reading ho.routine fun _ => by
      rw [hf, hin]; rfl).imp fun _ hb => Back.served i ?_
    rw [if_pos (by exact ho.valid)]
    exact hb
  | finish =>
    refine ends_step rfl hstep (finishing_goes (m := some (.worker i)) ?_ (fun _ => ho.watch)
      fun hv => absurd (hv.symm.trans ho.valid) (by simp))
    rwa [if_pos ho.valid]

theorem modAll_same (c : HttpConnection) (ms : List Mod) :
    (modAll c ms).id = c.id ∧ (modAll c ms).valid = c.valid ∧
      (modAll c ms).routine = c.routine := by
  induction ms generalizing c with
  | nil => exact ⟨rfl, rfl, rfl⟩
  | cons mod ms ih =>
    obtain ⟨hid, hv, hr, -⟩ := mod_same c mod
    obtain ⟨hid', hv', hr'⟩ := ih (mod.apply c).arm
    exact ⟨hid'.trans hid, hv'.trans hv, hr'.trans hr⟩

theorem answerMods_length (c : HttpConnection) : (answerMods c).length ≤ 2 := by
  unfold answerMods
  split <;> simp

theorem reading_goes (h : Runs e.place st r c (some (.worker i)) st.service.closed st')
    (ho : Open r c) (hcur : st'.current i = some r) (hin : (st'.frame r).inner = c.id) :
    Goes i x (n + 7) (st', inside .reading e pConn r, false)
      (Served i e.place st r (readHandled c x)) := by
  have hsame := tryReadRequest_same c x.reads
  have hstep : Worker.step i x st' (inside .reading e pConn r) =
      some ((inside .reading e pConn r).readStep x st') := rfl
  unfold Worker.readStep at hstep
  rw [h.service.conn] at hstep
  dsimp only at hstep
  rw [if_pos hin.symm] at hstep
  split at hstep <;> rename_i hread <;> unfold readHandled <;> rw [hread] at hsame ⊢
  · exact readEnd_goes (h.setConn hsame.id) (ho.same hsame) hcur (hin.trans hsame.id.symm) _ hstep
  · rename_i c' next hne
    have hgoes := readEnd_goes (n := n) (h.setConn hsame.id) (ho.same hsame) hcur
      (hin.trans hsame.id.symm) _ hstep
    cases next with
    | undefined => exact absurd rfl hne
    | _ => exact hgoes
  · rename_i c'
    have hanswer : SameSocket c (answer c' x.reply) := hsame.trans ⟨rfl, rfl, rfl, rfl⟩
    obtain ⟨-, hv, hr⟩ := modAll_same (answer c' x.reply) (answerMods c')
    have hlen := answerMods_length c'
    have hgoes : Goes i x (n + 2 + (answerMods c').length + 1)
        (st', inside .reading e pConn r, false) (Served i e.place st r
          ⟨modAll (answer c' x.reply) (answerMods c'), some .replied, false⟩) := by
      refine ends_step rfl hstep (mods_goes (answerMods c') (.yield .replied) (h.setConn hanswer.id)
        (ho.same hanswer).watch fun st'' _ hc hm => ?_)
      refine (yield_goes hm (hc ▸ hcur) .replied (hr.trans (ho.same hanswer).routine) fun hk =>
        absurd rfl hk).imp fun _ hb => Back.served i ?_
      rw [if_pos (hv.trans (ho.same hanswer).valid)]
      exact hb
    exact hgoes.mono (by omega)

theorem writing_goes (h : Runs e.place st r c (some (.worker i)) st.service.closed st')
    (ho : Open r c) (hcur : st'.current i = some r) (hin : (st'.frame r).inner = c.id) :
    Goes i x (n + 12) (st', inside .writing e pConn r, false)
      (Served i e.place st r (writeHandled c x)) := by
  have hsame := tryWriteResponce_same x.writes c
  have hstep : Worker.step i x st' (inside .writing e pConn r) =
      some ((inside .writing e pConn r).writeStep x st') := rfl
  unfold Worker.writeStep at hstep
  rw [h.service.conn] at hstep
  dsimp only at hstep
  rw [if_pos hin.symm] at hstep
  split at hstep <;> rename_i hwrite <;> unfold writeHandled <;> rw [hwrite] at hsame ⊢
  · refine ends_step rfl hstep (mods_goes (n := n + 10) [.unsubscribe WRITE] .finish
      (h.setConn hsame.id) (ho.same hsame).watch fun st'' _ _ hm => ?_)
    refine ends_step rfl rfl (finishing_goes (n := n + 3) (m := some (.worker i)) ?_
      (fun _ => nofun) fun hv => absurd (hv.symm.trans (ho.same hsame).valid) (by simp))
    rwa [if_pos (by exact (ho.same hsame).valid)]
  · split at hstep <;> rename_i hempty
    · dsimp only
      rw [if_pos hempty]
      refine ends_step rfl hstep (finishing_goes (n := n + 5) (m := some (.worker i)) ?_
        (fun _ => (ho.same hsame).watch) fun hv =>
          absurd (hv.symm.trans (ho.same hsame).valid) (by simp))
      rw [if_pos (ho.same hsame).valid]
      exact h.setConn hsame.id
    · dsimp only
      rw [if_neg hempty]
      refine ends_step rfl hstep (mods_goes (n := n + 10) [.subscribe WRITE] (.yield .writing)
        (h.setConn hsame.id) (ho.same hsame).watch fun st'' hf hc hm => ?_)
      refine (yield_goes (n := n + 8) hm (hc ▸ hcur) .writing (ho.same hsame).routine
        fun _ => ?_).imp fun _ hb => Back.served i ?_
      · rw [hf]
        exact hin.trans hsame.id.symm
      · rw [if_pos (by exact (ho.same hsame).valid)]
        exact hb
  · exact throw_goes (h.setConn hsame.id) hstep
  · rename_i c' next hne
    have hgoes : Goes i x (n + 12) (st', inside .writing e pConn r, false)
        (Served i e.place st r (serveEnd c'.close)) := by
      refine ends_step rfl hstep (checking_goes (n := n + 8) (h.setConn hsame.id)
        (ho.same hsame).valid .finish fun st'' hc => ?_)
      exact ends_step rfl rfl
        (finishing_goes (n := n + 1) hc (fun hv => (by cases hv)) fun _ => rfl)
    cases next with
    | thrown err => exact absurd rfl (hne err)
    | _ => exact hgoes

theorem create_spec {m : MainOrdinator ℕ Point Failure}
    (hq : ∀ r ∈ m.finished, r < m.routines.length) (p : ℕ) :
    (m.create p).1.routines[(m.create p).2]? = some (.fresh p) ∧
      (∀ k, k ≠ (m.create p).2 → (m.create p).1.routines[k]? = m.routines[k]?) ∧
      ∀ r ∈ (m.create p).1.finished, r < (m.create p).1.routines.length := by
  unfold MainOrdinator.create
  split
  · rename_i hnil
    refine ⟨by simp, fun k hk => ?_, fun r hr => ?_⟩
    · rcases Nat.lt_or_gt_of_ne hk with hlt | hgt
      · exact List.getElem?_append_left hlt
      · rw [List.getElem?_eq_none (by simp; omega), List.getElem?_eq_none (by omega)]
    · exact absurd hr (by simp [hnil])
  · rename_i r finished hcons
    have hlen : r < m.routines.length := hq r (by simp [hcons])
    refine ⟨by simp [MainOrdinator.update, hlen], fun k hk => ?_, fun q hr => ?_⟩
    · simp [MainOrdinator.update, List.getElem?_set_ne (Ne.symm hk)]
    · have hlt := hq q (by rw [hcons]; exact List.mem_cons_of_mem _ hr)
      simpa [MainOrdinator.update] using hlt

theorem create_own (st : State) (p : ℕ) : Own st p (st.main.create p).2 := by
  intro routine hget
  unfold MainOrdinator.create at hget ⊢
  split at hget
  · simp at hget
  · rename_i r finished hcons
    rw [hcons]
    exact .inr List.mem_cons_self

/-- From `starting` on, with a routine that has just been created. -/
theorem starting_goes (h : Runs e.place st r c (some (.worker i)) st.service.closed st')
    (ht : st'.service.timeod = st.service.timeod) (ho : Open r c)
    (hcur : st'.current i = some r) :
    Goes i x (n + 8) (st', inside .starting e pConn r, false)
      (Served i e.place st r (readHandled { c with start := st.service.now } x)) := by
  have hreset := h.service.reset ht x.stray
  have hfree : (st'.service.resetLastActivityTime e.place x.stray).closingMutex = none :=
    (shiftToBack_only ..).closingMutex.trans h.free
  have hruns := h.withService hreset hfree rfl
  have hframe := hruns.setFrame (f := { st'.frame r with
    inner := (st'.service.conn e.place).id }) h.serve
  refine ends_step rfl rfl (reading_goes hframe ⟨ho.valid, ho.watch, ho.routine⟩ hcur ?_)
  rw [setFrame_self]
  show (st'.service.conn e.place).id = c.id
  rw [h.service.conn]

end Segments

/-- Handling an event of an open connection is `handled`. -/
theorem Worker.handle_served {i n p pConn r₀ place : ℕ} {x : Input} {st : State} {e : Event}
    {stage : Option Point} (hp : e.place = p) (hv : (st.service.conn p).valid = true)
    (hw : (st.service.conn p).watch ≠ .absent) (hm : st.service.mutex p = none)
    (hf : st.service.closingMutex = none) (hq : Queued st) (hs : Stands st p stage) :
    ∃ r, Own st p r ∧ Goes i x (n + 15) (st, ⟨.looping, [e], pConn, r₀, place⟩, false)
      (Served i p st r
        (handled { st.service.conn p with routine := some r } st.service.now x stage)) := by
  subst hp
  set locked : State := { st with service := st.service.setMutex e.place (some (.worker i)) }
    with hlocked
  have hconn : locked.service.conn e.place = st.service.conn e.place := setMutex_conn ..
  have hloop : Worker.step i x st ⟨.looping, [e], pConn, r₀, place⟩ =
      some (locked, ⟨.entered, [e], (st.service.conn e.place).id, r₀, place⟩, false) := by
    simp [Worker.step, hm, hlocked]
  have halters := (Alters.refl e.place st.service).setMutex (some (.worker i))
  cases stage with
  | none =>
    obtain ⟨hcreate, hothers, hqueued⟩ := create_spec hq e.place
    refine ⟨(st.main.create e.place).2, create_own st e.place, ends_step rfl hloop ?_⟩
    generalize hc : st.main.create e.place = mr at hcreate hothers hqueued ⊢
    obtain ⟨main, r⟩ := mr
    have henter : Worker.step i x locked
        ⟨.entered, [e], (st.service.conn e.place).id, r₀, place⟩ =
        some ((({ locked with main } : State).setFrame r (locked.linked i r)).setConn e.place
          { st.service.conn e.place with routine := some r },
          ⟨.resuming, [e], (st.service.conn e.place).id, r, place⟩, false) := by
      have hnone : (st.service.conn e.place).routine = none := hs
      simp only [Worker.step, Worker.enterStep, hconn, if_true, hnone]
      rw [show locked.main = st.main from rfl, hc]
    have hopen := state_setConn (({ locked with main } : State).setFrame r (locked.linked i r))
      e.place { st.service.conn e.place with routine := some r }
    set entered := (({ locked with main } : State).setFrame r (locked.linked i r)).setConn e.place
      { st.service.conn e.place with routine := some r } with hentered
    have hget : entered.main.routines[r]? = some (.fresh e.place) := hcreate
    set resumed := ((entered.setCurrent i (some r)).setFrame r
        { entered.frame r with ucLink := i }).setFrame r
      { entered.frame r with serve := (entered.service.conn e.place).id, first := i, ucLink := i }
      with hresumed
    have hresume :
        Worker.step i x entered ⟨.resuming, [e], (st.service.conn e.place).id, r, place⟩ =
        some (resumed, inside .starting e (st.service.conn e.place).id r, false) := by
      simp only [Worker.step, Worker.resumeStep, hget]
      rfl
    have hframe : ∀ k, k ≠ r → resumed.frame k = st.frame k := fun k hk =>
      (Function.update_of_ne hk _ _).trans
        ((Function.update_of_ne hk _ _).trans (Function.update_of_ne hk _ _))
    have hruns : Runs e.place st r { st.service.conn e.place with routine := some r }
        (some (.worker i)) st.service.closed resumed := by
      refine ⟨halters.setConn _, hf, fun k hk => ⟨hothers k hk, hframe k hk⟩,
        ⟨_, hcreate, rfl, rfl⟩, ?_, hqueued⟩
      rw [hresumed, setFrame_self, hopen]
    exact ends_step rfl henter (ends_step rfl hresume
      (starting_goes (n := n + 4) hruns rfl ⟨hv, hw, rfl⟩ (Function.update_self ..)))
  | some k =>
    obtain ⟨r, hown, ⟨routine, hget, hfunc, hfin, hctx⟩, hserve, hinner⟩ := hs
    refine ⟨r, fun routine' hget' => ?_, ends_step rfl hloop ?_⟩
    · obtain rfl := Option.some.inj (hget.symm.trans hget')
      exact .inl hfunc
    have henter : Worker.step i x locked
        ⟨.entered, [e], (st.service.conn e.place).id, r₀, place⟩ =
        some (locked, ⟨.resuming, [e], (st.service.conn e.place).id, r, place⟩, false) := by
      simp only [Worker.step, Worker.enterStep, hconn, if_true, hown]
    have hsame : { st.service.conn e.place with routine := some r } = st.service.conn e.place := by
      rw [← hown]
    have hopen : Open r (st.service.conn e.place) := ⟨hv, hw, hown⟩
    set noted := (locked.setCurrent i (some r)).setFrame r { locked.frame r with ucLink := i }
      with hnoted
    have hcur : noted.current i = some r := Function.update_self ..
    have hruns : Runs e.place st r (st.service.conn e.place) (some (.worker i)) st.service.closed
        noted := by
      refine ⟨halters, hf, fun k hk => ⟨rfl, Function.update_of_ne hk _ _⟩,
        ⟨routine, hget, hfunc, hfin⟩, ?_, hq⟩
      rw [hnoted, setFrame_self]
      exact hserve
    have hinner : k ≠ .replied → (noted.frame r).inner = (st.service.conn e.place).id := by
      rw [hnoted, setFrame_self]
      exact hinner
    rw [hsame]
    have hlook : locked.main.routines[r]? = some routine := hget
    cases k with
    | reading =>
      have hresume : Worker.step i x locked
          ⟨.resuming, [e], (st.service.conn e.place).id, r, place⟩ =
          some (noted, inside .reading e (st.service.conn e.place).id r, false) := by
        simp [Worker.step, Worker.resumeStep, hlook, hctx, hfin, hfunc, hnoted]
      exact ends_step rfl henter (ends_step rfl hresume
        (reading_goes (n := n + 5) hruns hopen hcur (hinner (by simp))))
    | replied =>
      have hresume : Worker.step i x locked
          ⟨.resuming, [e], (st.service.conn e.place).id, r, place⟩ =
          some (noted.setFrame r
              { locked.frame r with inner := (st.service.conn e.place).id, ucLink := i },
            inside .writing e (st.service.conn e.place).id r, false) := by
        simp [Worker.step, Worker.resumeStep, hlook, hctx, hfin, hfunc, hconn, hnoted]
      refine ends_step rfl henter (ends_step rfl hresume
        (writing_goes (hruns.setFrame hserve) hopen hcur ?_))
      rw [setFrame_self]
    | writing =>
      have hresume : Worker.step i x locked
          ⟨.resuming, [e], (st.service.conn e.place).id, r, place⟩ =
          some (noted, inside .writing e (st.service.conn e.place).id r, false) := by
        simp [Worker.step, Worker.resumeStep, hlook, hctx, hfin, hfunc, hnoted]
      exact ends_step rfl henter (ends_step rfl hresume
        (writing_goes hruns hopen hcur (hinner (by simp))))

end Sphere.Cor
