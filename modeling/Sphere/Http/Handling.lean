import Sphere.Http.TimeoutList
import Sphere.Lib.Settle

/-! One event, from the worker's loop back to it, with no other thread in between: as a
function of the connection it is `handled`, and nothing else but the queue of closed
places changes. -/

namespace Sphere.Http

open Lib Net SlotPool Settle

/-- Epoll is told of the connection's option. -/
def HttpConnection.arm (c : HttpConnection) : HttpConnection :=
  { c with watch := .armed c.epollOption }

/-- How the handling goes on, and whether an exception leaves the loop. -/
def goOn (c : HttpConnection) : Next → HttpConnection × Bool
  | .thrown _ | .undefined => (c, true)
  | .close _ => (c.close, false)
  | .rearm => ((c.subscribe READ).arm, false)
  | .finish =>
    if c.epollOption = ET_ONESHOT then (c.close, false) else ((c.subscribe UNKNOWN).arm, false)

/-- What serving an event makes of the connection. -/
def handled (c : HttpConnection) (e : Event) (x : Input) : HttpConnection × Bool :=
  let served := serve c e x.script
  goOn served.1 (if served.2 = .undefined then x.guess else served.2)

/-- The worker steps until it has no event left or an exception leaves it. -/
def Worker.handle (i : ℕ) (x : Input) (n : ℕ) (s : Service) (w : Worker) :
    Option (Stepped Worker) :=
  settle (fun r => r.2.1.step i x r.1) (fun r => r.2.2 || r.2.1.events.isEmpty) n (s, w, false)

/-- Place `p` has the connection `c` and the mutex `m`, the queue is `closed`, and other
places are as they were. -/
structure Alters (p : ℕ) (s : Service) (c : HttpConnection) (m : Option Thread)
    (closed : List ℕ) (s' : Service) : Prop where
  conn : s'.conn p = c
  others : ∀ q, q ≠ p → s'.conn q = s.conn q ∧ s'.mutex q = s.mutex q
  iters : s.Linked p → ∀ q, s'.iter q = s.iter q
  mutex : s'.mutex p = m
  closed : s'.closed = closed
  size : s'.size = s.size
  now : s'.now = s.now

section Alters

variable {p : ℕ} {s s' : Service} {c : HttpConnection} {m : Option Thread} {closed : List ℕ}

theorem Alters.setConn (h : Alters p s c m closed s') (d : HttpConnection) :
    Alters p s d m closed (s'.setConn p d) := by
  refine ⟨by simp, fun q hq => ?_, fun hl q => ?_, ?_, h.closed, h.size, h.now⟩
  · rw [setConn_conn, if_neg hq, setConn_mutex]
    exact h.others q hq
  · rw [setConn_iter]
    exact h.iters hl q
  · rw [setConn_mutex]
    exact h.mutex

theorem Alters.setMutex (h : Alters p s c m closed s') (o : Option Thread) :
    Alters p s c o closed (s'.setMutex p o) := by
  refine ⟨by rw [setMutex_conn]; exact h.conn, fun q hq => ?_, fun hl q => ?_, by simp, h.closed,
    h.size, h.now⟩
  · rw [setMutex_conn, setMutex_mutex, if_neg hq]
    exact h.others q hq
  · rw [setMutex_iter]
    exact h.iters hl q

theorem Alters.lockClosing (h : Alters p s c m closed s') (o : Option Thread) :
    Alters p s c m closed { s' with closingMutex := o } :=
  ⟨h.conn, h.others, h.iters, h.mutex, h.closed, h.size, h.now⟩

theorem Alters.push (h : Alters p s c m closed s') (o : Option Thread) :
    Alters p s c m (closed ++ [p])
      { s' with closed := s'.closed ++ [p], closingMutex := o } :=
  ⟨h.conn, h.others, h.iters, h.mutex, by rw [← h.closed], h.size, h.now⟩

theorem Alters.refl (p : ℕ) (s : Service) : Alters p s (s.conn p) (s.mutex p) s.closed s :=
  ⟨rfl, fun _ _ => ⟨rfl, rfl⟩, fun _ _ => rfl, rfl, rfl, rfl, rfl⟩

/-- `reset_last_activity_time`, while the list is still as it was. -/
theorem Alters.reset (h : Alters p s c m closed s') (ht : s'.timeod = s.timeod)
    (stray : NodeList ℕ) : Alters p s { c with start := s.now } m closed
      (s'.resetLastActivityTime p stray) := by
  have honly := shiftToBack_only (s'.setConn p { s'.conn p with start := s'.now }) p stray
  refine ⟨?_, fun q hq => ⟨?_, ?_⟩, fun hl q => ?_, ?_, honly.closed.trans h.closed,
    honly.size.trans h.size, ?_⟩
  · rw [reset_conn, if_pos rfl, h.conn, h.now]
  · rw [reset_conn, if_neg hq]
    exact (h.others q hq).1
  · unfold Service.resetLastActivityTime
    rw [honly.mutex, setConn_mutex]
    exact (h.others q hq).2
  · obtain ⟨n, hn, hmem⟩ := hl
    have hlinked : (s'.setConn p { s'.conn p with start := s'.now }).Linked p :=
      ⟨n, by rw [setConn_iter, h.iters ⟨n, hn, hmem⟩]; exact hn, ht ▸ hmem⟩
    unfold Service.resetLastActivityTime
    rw [(shiftToBack_reorders hlinked stray).iter, setConn_iter]
    exact h.iters ⟨n, hn, hmem⟩ q
  · unfold Service.resetLastActivityTime
    rw [honly.mutex, setConn_mutex]
    exact h.mutex
  · unfold Service.resetLastActivityTime Service.shiftToBack
    split
    · exact h.now
    · split <;> exact h.now

end Alters

/-- The worker is back in its loop, with every mutex given back that it has taken. -/
structure Back (p : ℕ) (s : Service) (c : HttpConnection) (closed : List ℕ) (r : Stepped Worker) :
    Prop where
  stays : r.2.2 = false
  pc : r.2.1.pc = .looping
  events : r.2.1.events = []
  alters : Alters p s c none closed r.1
  free : r.1.closingMutex = none

/-- What comes of an event of place `p`. -/
structure Served (i p : ℕ) (s : Service) (h : HttpConnection × Bool) (r : Stepped Worker) :
    Prop where
  stays : h.2 = false → Back p s h.1 (if h.1.valid then s.closed else s.closed ++ [p]) r
  leaves : h.2 = true → r.2.2 = true ∧
    Alters p s h.1 (some (.worker i)) s.closed r.1 ∧ r.1.closingMutex = none

theorem Back.served {p : ℕ} {s : Service} {c : HttpConnection} {r : Stepped Worker} (i : ℕ)
    (hv : c.valid = true) (h : Back p s c s.closed r) : Served i p s (c, false) r :=
  ⟨fun _ => by rwa [if_pos hv], fun hout => (by cases hout)⟩

theorem Back.served_close {p : ℕ} {s : Service} {c : HttpConnection} {r : Stepped Worker} (i : ℕ)
    (h : Back p s c.close (s.closed ++ [p]) r) : Served i p s (c.close, false) r :=
  ⟨fun _ => h, fun hout => (by cases hout)⟩

section Segments

variable {i n pConn : ℕ} {x : Input} {s s' : Service} {e : Event} {c : HttpConnection}
  {m : Option Thread} {closed : List ℕ}

/-- From a program point of the worker on, with the event in hand. -/
abbrev Goes (i : ℕ) (x : Input) (n : ℕ) (r : Stepped Worker) (P : Stepped Worker → Prop) : Prop :=
  Ends (fun r : Stepped Worker => r.2.1.step i x r.1) (fun r => r.2.2 || r.2.1.events.isEmpty) n r P

theorem leaving_goes (h : Alters e.place s c m closed s') (hf : s'.closingMutex = none) :
    Goes i x (n + 1) (s', ⟨.leaving, [e], pConn⟩, false) (Back e.place s c closed) :=
  ends_step rfl rfl (ends_done _ rfl ⟨rfl, rfl, rfl, h.setMutex none, hf⟩)

theorem isOneshot_eq (h : Alters e.place s c m closed s') (hid : c.id = pConn) (pc : Pc) :
    Worker.isOneshot x s' ⟨pc, [e], pConn⟩ e = decide (c.epollOption = ET_ONESHOT) := by
  unfold Worker.isOneshot
  rw [h.conn, if_pos hid]

/-- A connection that is closed already is left alone. -/
theorem checking_goes_closed (h : Alters e.place s c m closed s') (hf : s'.closingMutex = none)
    (hv : c.valid = false) :
    Goes i x (n + 2) (s', ⟨.checking .leave, [e], pConn⟩, false) (Back e.place s c closed) := by
  have hstep : Worker.step i x s' ⟨.checking .leave, [e], pConn⟩ =
      some (s', ⟨.leaving, [e], pConn⟩, false) := by
    simp [Worker.step, h.conn, hv, After.next]
  exact ends_step rfl hstep (leaving_goes h hf)

theorem finishing_goes_closed (h : Alters e.place s c m closed s') (hf : s'.closingMutex = none)
    (hv : c.valid = false) (ho : c.epollOption = ET_ONESHOT) (hid : c.id = pConn) :
    Goes i x (n + 3) (s', ⟨.finishing, [e], pConn⟩, false) (Back e.place s c closed) := by
  have hstep : Worker.step i x s' ⟨.finishing, [e], pConn⟩ =
      some (s', ⟨.checking .leave, [e], pConn⟩, false) := by
    simp only [Worker.step, Worker.finishStep, isOneshot_eq h hid, ho, decide_true, if_true]
  exact ends_step rfl hstep (checking_goes_closed h hf hv)

/-- `close_client` of an open connection. -/
theorem checking_goes (h : Alters e.place s c m closed s') (hf : s'.closingMutex = none)
    (hv : c.valid = true) (hid : c.id = pConn) (k : After) :
    Goes i x (n + 6) (s', ⟨.checking k, [e], pConn⟩, false)
      (Back e.place s c.close (closed ++ [e.place])) := by
  have hcheck : Worker.step i x s' ⟨.checking k, [e], pConn⟩ =
      some (s', ⟨.pushing c.id k, [e], pConn⟩, false) := by
    simp [Worker.step, h.conn, hv]
  have hpush : Worker.step i x s' ⟨.pushing c.id k, [e], pConn⟩ =
      some ({ s' with closed := s'.closed ++ [e.place], closingMutex := some (.worker i) },
        ⟨.shutting c.id k, [e], pConn⟩, false) := by
    simp [Worker.step, hf]
  have hpushed := h.push (some (.worker i))
  have hshut := (hpushed.setConn c.close).lockClosing none
  have hclose : Worker.step i x
      { s' with closed := s'.closed ++ [e.place], closingMutex := some (.worker i) }
      ⟨.shutting c.id k, [e], pConn⟩ = some ({ Service.setConn
        { s' with closed := s'.closed ++ [e.place], closingMutex := some (.worker i) } e.place
          c.close with closingMutex := none }, ⟨k.next, [e], pConn⟩, false) := by
    simp only [Worker.step]
    rw [hpushed.conn, if_pos rfl]
  refine ends_step rfl hcheck (ends_step rfl hpush (ends_step rfl hclose ?_))
  cases k with
  | finish => exact finishing_goes_closed hshut rfl rfl rfl hid
  | leave => exact leaving_goes hshut rfl

/-- `subscribe` and the end of the handling. -/
theorem subscribe_goes {t : Service} {pc : Pc} {opt : OPTION}
    (h : Alters e.place s c m closed s') (hf : s'.closingMutex = none) (hw : c.watch ≠ .absent)
    (hstep : Worker.step i x t ⟨pc, [e], pConn⟩ =
      some (s'.subscribeThen e.place opt ⟨pc, [e], pConn⟩ .leaving)) :
    Goes i x (n + 2) (t, ⟨pc, [e], pConn⟩, false)
      (Back e.place s (c.subscribe opt).arm closed) := by
  have hmod : s'.subscribeThen e.place opt ⟨pc, [e], pConn⟩ .leaving =
      (s'.setConn e.place (c.subscribe opt).arm, ⟨.leaving, [e], pConn⟩, false) := by
    unfold Service.subscribeThen Service.subscribe Service.epollMod
    rw [h.conn, if_neg (by exact hw)]
    rfl
  rw [hmod] at hstep
  exact ends_step rfl hstep (leaving_goes (h.setConn _) hf)

theorem finishing_goes (h : Alters e.place s c m closed s') (hf : s'.closingMutex = none)
    (hv : c.valid = true) (hw : c.watch ≠ .absent) (hid : c.id = pConn) :
    Goes i x (n + 7) (s', ⟨.finishing, [e], pConn⟩, false) (fun r =>
      if c.epollOption = ET_ONESHOT then Back e.place s c.close (closed ++ [e.place]) r
      else Back e.place s (c.subscribe UNKNOWN).arm closed r) := by
  split
  · rename_i ho
    have hstep : Worker.step i x s' ⟨.finishing, [e], pConn⟩ =
        some (s', ⟨.checking .leave, [e], pConn⟩, false) := by
      simp only [Worker.step, Worker.finishStep, isOneshot_eq h hid, ho, decide_true, if_true]
    exact ends_step rfl hstep (checking_goes h hf hv hid .leave)
  · rename_i ho
    have hstep : Worker.step i x s' ⟨.finishing, [e], pConn⟩ =
        some (s'.subscribeThen e.place UNKNOWN ⟨.finishing, [e], pConn⟩ .leaving) := by
      simp only [Worker.step, Worker.finishStep, isOneshot_eq h hid, ho, decide_false,
        Bool.false_eq_true, if_false]
    exact subscribe_goes (n := n + 5) h hf hw hstep

theorem serving_goes (h : Alters e.place s c (some (.worker i)) s.closed s')
    (hf : s'.closingMutex = none) (hv : c.valid = true) (hw : c.watch ≠ .absent)
    (hid : c.id = pConn) :
    Goes i x (n + 8) (s', ⟨.serving, [e], pConn⟩, false) (Served i e.place s (handled c e x)) := by
  have hsame := serve_same c e x.script
  have halters := h.setConn (serve c e x.script).1
  have hvalid := hsame.valid.trans hv
  have hwatch : (serve c e x.script).1.watch ≠ .absent := by rwa [hsame.watch]
  have hpConn := hsame.id.trans hid
  have hstep : Worker.step i x s' ⟨.serving, [e], pConn⟩ =
      some (Worker.serveStep x s' ⟨.serving, [e], pConn⟩ e) := rfl
  unfold Worker.serveStep at hstep
  rw [h.conn] at hstep
  dsimp only at hstep
  split at hstep <;> rename_i hnext <;> unfold handled goOn <;> dsimp only <;> rw [hnext]
  · exact ends_step rfl hstep (ends_done _ rfl
      ⟨fun hout => (by cases hout), fun _ => ⟨rfl, halters, hf⟩⟩)
  · exact ends_step rfl hstep (ends_done _ rfl
      ⟨fun hout => (by cases hout), fun _ => ⟨rfl, halters, hf⟩⟩)
  · rename_i k
    exact ends_step rfl hstep ((checking_goes (n := n + 1) halters hf hvalid hpConn k).imp
      fun r hr => hr.served_close i)
  · exact (subscribe_goes (n := n + 6) halters hf hwatch hstep).imp fun r hr => hr.served i hvalid
  · refine ends_step rfl hstep ((finishing_goes halters hf hvalid hwatch hpConn).imp
      fun r hr => ?_)
    split at hr <;> rename_i ho
    · simp only [ho, if_true]
      exact hr.served_close i
    · simp only [ho, if_false]
      exact hr.served i hvalid

/-- Handling an event of an open connection is `handled`. -/
theorem Worker.handle_served {p : ℕ} (hp : e.place = p) (hv : (s.conn p).valid = true)
    (hw : (s.conn p).watch ≠ .absent) (hm : s.mutex p = none) (hf : s.closingMutex = none) :
    Goes i x (n + 11) (s, ⟨.looping, [e], pConn⟩, false)
      (Served i p s (handled { s.conn p with start := s.now } e x)) := by
  subst hp
  have hloop : Worker.step i x s ⟨.looping, [e], pConn⟩ = some (s.setMutex e.place
      (some (.worker i)), ⟨.entered, [e], (s.conn e.place).id⟩, false) := by
    simp [Worker.step, hm, hv]
  have halters := ((Alters.refl e.place s).setMutex (some (.worker i))).reset rfl x.stray
  have hfree : ((s.setMutex e.place (some (.worker i))).resetLastActivityTime e.place
      x.stray).closingMutex = none := (shiftToBack_only ..).closingMutex.trans hf
  refine ends_step rfl hloop (ends_step rfl rfl ?_)
  exact serving_goes (n := n + 1) halters hfree hv hw rfl

end Segments

end Sphere.Http
