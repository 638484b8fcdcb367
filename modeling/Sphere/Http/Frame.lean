import Sphere.Http.System

/-! What one step of a worker leaves alone: every place but that of the event in hand,
there the identity of the connection, and the timeout list unless it is the step that
moves the place to its end. -/

namespace Sphere.Http

open Lib Net

theorem setConn_id {s : Service} {p : ℕ} {c : HttpConnection} (h : c.id = (s.conn p).id) (q : ℕ) :
    ((s.setConn p c).conn q).id = (s.conn q).id := by
  by_cases hq : q = p <;> simp [hq, h]

theorem epollMod_id {s s' : Service} {p : ℕ} {c : HttpConnection}
    (hc : c.id = (s.conn p).id) (h : s.epollMod p c = some s') (q : ℕ) :
    (s'.conn q).id = (s.conn q).id := by
  unfold Service.epollMod at h
  split at h
  · cases h
  · cases h
    exact setConn_id (c := { c with watch := .armed c.epollOption }) hc q

/-- A closed connection is not opened, an unregistered one is not registered. -/
structure Settles (c c' : HttpConnection) : Prop where
  id : c'.id = c.id
  valid : c.valid = false → c'.valid = false
  watch : c.watch = .absent → c'.watch = .absent

theorem Settles.refl (c : HttpConnection) : Settles c c := ⟨rfl, fun h => h, fun h => h⟩

theorem Settles.trans {c d e : HttpConnection} (h : Settles c d) (h' : Settles d e) : Settles c e :=
  ⟨h'.id.trans h.id, fun hv => h'.valid (h.valid hv), fun hw => h'.watch (h.watch hw)⟩

theorem SameSocket.settles {c c' : HttpConnection} (h : SameSocket c c') : Settles c c' :=
  ⟨h.id, fun hv => h.valid.trans hv, fun hw => h.watch.trans hw⟩

/-- The responses and what has been sent of them are the same. -/
structure SameOutput (c c' : HttpConnection) : Prop where
  write : c'.write = c.write
  sent : c'.sent = c.sent
  replies : c'.replies = c.replies

theorem SameOutput.refl (c : HttpConnection) : SameOutput c c := ⟨rfl, rfl, rfl⟩

theorem SameOutput.of_eq {c c' : HttpConnection} (h : c' = c) : SameOutput c c' := h ▸ .refl c

/-- A change that concerns only the connection of place `p`. -/
structure Touches (p : ℕ) (s s' : Service) : Prop where
  conn : ∀ q, q ≠ p → s'.conn q = s.conn q
  mutex : ∀ q, s'.mutex q = s.mutex q
  settles : Settles (s.conn p) (s'.conn p)
  size : s'.size = s.size
  timeod : s'.timeod = s.timeod
  iter : ∀ q, s'.iter q = s.iter q

theorem Touches.refl (p : ℕ) (s : Service) : Touches p s s :=
  ⟨fun _ _ => rfl, fun _ => rfl, .refl _, rfl, rfl, fun _ => rfl⟩

theorem Touches.trans {p : ℕ} {s t u : Service} (h : Touches p s t) (h' : Touches p t u) :
    Touches p s u :=
  ⟨fun q hq => (h'.conn q hq).trans (h.conn q hq), fun q => (h'.mutex q).trans (h.mutex q),
    h.settles.trans h'.settles, h'.size.trans h.size, h'.timeod.trans h.timeod,
    fun q => (h'.iter q).trans (h.iter q)⟩

theorem touches_setConn {s : Service} {p : ℕ} {c : HttpConnection} (h : Settles (s.conn p) c) :
    Touches p s (s.setConn p c) := by
  refine ⟨fun q hq => ?_, fun q => setConn_mutex .., ?_, rfl, rfl, fun q => setConn_iter ..⟩
  · rw [setConn_conn, if_neg hq]
  · rw [setConn_conn, if_pos rfl]
    exact h

theorem touches_subscribe {s s' : Service} {p : ℕ} {opt : OPTION}
    (h : s.subscribe p opt = some s') : Touches p s s' := by
  unfold Service.subscribe Service.epollMod at h
  split at h
  · cases h
  · rename_i hw
    cases h
    exact touches_setConn ⟨rfl, fun h => h, fun h => absurd h hw⟩

theorem subscribeThen_touches (s : Service) (p : ℕ) (opt : OPTION) (w : Worker) (pc : Pc) :
    Touches p s (s.subscribeThen p opt w pc).1 ∧
      (s.subscribeThen p opt w pc).2.1.events = w.events := by
  unfold Service.subscribeThen
  split
  · rename_i s' hs
    exact ⟨touches_subscribe hs, rfl⟩
  · exact ⟨.refl p s, rfl⟩

theorem subscribeThen_output (s : Service) (p : ℕ) (opt : OPTION) (w : Worker) (pc : Pc) :
    SameOutput (s.conn p) ((s.subscribeThen p opt w pc).1.conn p) := by
  unfold Service.subscribeThen Service.subscribe Service.epollMod
  split
  · rename_i s' hs
    split at hs <;> cases hs
    dsimp only
    rw [setConn_conn, if_pos rfl]
    exact ⟨rfl, rfl, rfl⟩
  · exact .refl _

/-- The connection of the event in hand once the worker has served it, if it is to. -/
def Worker.served (x : Script) (s : Service) (w : Worker) (e : Event) : HttpConnection :=
  if w.pc = .serving then (serve (s.conn e.place) e x).1 else s.conn e.place

/-- What a worker does to the place of the event in hand while it has its mutex. Only
serving the event concerns the responses. -/
structure Worker.Handles (x : Script) (s s' : Service) (w w' : Worker) (e : Event) : Prop where
  touches : Touches e.place s s'
  events : w'.events = w.events
  output : SameOutput (w.served x s e) (s'.conn e.place)

theorem Worker.serveStep_handles {x : Input} {s : Service} {w : Worker} {e : Event}
    (hpc : w.pc = .serving) :
    w.Handles x.script s (w.serveStep x s e).1 (w.serveStep x s e).2.1 e := by
  have hserve := touches_setConn (serve_same (s.conn e.place) e x.script).settles
  have hconn : (s.setConn e.place (serve (s.conn e.place) e x.script).1).conn e.place =
      (serve (s.conn e.place) e x.script).1 := (setConn_conn ..).trans (if_pos rfl)
  have hout : w.served x.script s e = (serve (s.conn e.place) e x.script).1 := if_pos hpc
  unfold Worker.serveStep
  dsimp only
  split
  · exact ⟨hserve, rfl, .of_eq (hconn.trans hout.symm)⟩
  · exact ⟨hserve, rfl, .of_eq (hconn.trans hout.symm)⟩
  · exact ⟨hserve, rfl, .of_eq (hconn.trans hout.symm)⟩
  · have hsub := subscribeThen_touches (s.setConn e.place (serve (s.conn e.place) e x.script).1)
      e.place READ w .leaving
    have hsame := subscribeThen_output (s.setConn e.place (serve (s.conn e.place) e x.script).1)
      e.place READ w .leaving
    rw [hconn, ← hout] at hsame
    exact ⟨hserve.trans hsub.1, hsub.2, hout ▸ hsame⟩
  · exact ⟨hserve, rfl, .of_eq (hconn.trans hout.symm)⟩

theorem Worker.finishStep_handles {x : Input} {s : Service} {w : Worker} {e : Event}
    (hpc : w.pc = .finishing) :
    w.Handles x.script s (w.finishStep x s e).1 (w.finishStep x s e).2.1 e := by
  have hsub := subscribeThen_touches s e.place UNKNOWN w .leaving
  have hout : w.served x.script s e = s.conn e.place := if_neg (by simp [hpc])
  unfold Worker.finishStep
  split
  · exact ⟨.refl _ _, rfl, .of_eq hout.symm⟩
  · refine ⟨hsub.1, hsub.2, ?_⟩
    rw [hout]
    exact subscribeThen_output ..

/-- One step of worker `i`. -/
inductive Worker.Move (i : ℕ) (x : Script) (s : Service) (w : Worker) : Service → Worker → Prop
  | idle (w') : w.pc = .waiting ∨ w.events = [] → w'.events = w.events → Move i x s w s w'
  | take (e es) : w.pc = .looping → w.events = e :: es → s.mutex e.place = none →
      (s.conn e.place).valid = true →
      Move i x s w (s.setMutex e.place (some (.worker i)))
        { w with pc := .entered, pConn := (s.conn e.place).id }
  | skip (e es) : w.pc = .looping → w.events = e :: es → s.mutex e.place = none →
      Move i x s w s { w with events := es }
  | reset (e es stray) : w.pc = .entered → w.events = e :: es →
      Move i x s w (s.resetLastActivityTime e.place stray) { w with pc := .serving }
  | handle (e es s' w') : w.pc ≠ .entered → w.events = e :: es → w.Handles x s s' w' e →
      Move i x s w s' w'
  | leave (e es) : w.pc = .leaving → w.events = e :: es →
      Move i x s w (s.setMutex e.place none) { w with pc := .looping, events := es }

theorem Worker.step_move {i : ℕ} {x : Input} {s s' : Service} {w w' : Worker} {out : Bool}
    (h : w.step i x s = some (s', w', out)) : w.Move i x.script s s' w' := by
  obtain ⟨pc, events, pConn⟩ := w
  cases events with
  | nil => cases pc <;> cases h <;> exact .idle _ (.inr rfl) rfl
  | cons e es =>
    cases pc with
    | waiting =>
      cases h
      exact .idle _ (.inl rfl) rfl
    | entered =>
      cases h
      exact .reset e es x.stray rfl rfl
    | looping =>
      simp only [Worker.step] at h
      split_ifs at h with hm hv <;> cases h
      · exact .take e es rfl rfl hm hv
      · exact .skip e es rfl rfl hm
    | serving =>
      have hserve := Worker.serveStep_handles (x := x) (s := s) (w := ⟨.serving, e :: es, pConn⟩)
        (e := e) rfl
      rw [Option.some.inj h] at hserve
      exact .handle e es _ _ (by simp) rfl hserve
    | finishing =>
      have hfinish := Worker.finishStep_handles (x := x) (s := s)
        (w := ⟨.finishing, e :: es, pConn⟩) (e := e) rfl
      rw [Option.some.inj h] at hfinish
      exact .handle e es _ _ (by simp) rfl hfinish
    | checking k =>
      simp only [Worker.step] at h
      split at h <;> cases h <;> exact .handle e es _ _ (by simp) rfl ⟨.refl _ _, rfl, .refl _⟩
    | pushing c k =>
      simp only [Worker.step] at h
      split at h <;> cases h
      refine .handle e es _ _ (by simp) rfl ⟨?_, rfl, .refl _⟩
      exact ⟨fun _ _ => rfl, fun _ => rfl, .refl _, rfl, rfl, fun _ => rfl⟩
    | shutting c k =>
      simp only [Worker.step] at h
      cases h
      have hclose := touches_setConn (s := s) (c := (s.conn e.place).close)
        ⟨rfl, fun _ => rfl, fun _ => rfl⟩
      refine .handle e es _ _ (by simp) rfl ⟨?_, rfl, ?_⟩
      · split
        · exact ⟨hclose.conn, hclose.mutex, hclose.settles, rfl, rfl, hclose.iter⟩
        · exact ⟨fun _ _ => rfl, fun _ => rfl, .refl _, rfl, rfl, fun _ => rfl⟩
      · split
        · have hconn : (s.setConn e.place (s.conn e.place).close).conn e.place =
              (s.conn e.place).close := (setConn_conn ..).trans (if_pos rfl)
          have hsame : SameOutput (s.conn e.place) (s.conn e.place).close := ⟨rfl, rfl, rfl⟩
          rw [← hconn] at hsame
          exact hsame
        · exact .refl _
    | leaving =>
      cases h
      exact .leave e es rfl rfl

theorem reset_conn (s : Service) (p q : ℕ) (stray : NodeList ℕ) :
    (s.resetLastActivityTime p stray).conn q =
      if q = p then { s.conn p with start := s.now } else s.conn q :=
  ((shiftToBack_only _ p stray).conn q).trans (setConn_conn ..)

section Moves

variable {i : ℕ} {x : Script} {s s' : Service} {w w' : Worker}

theorem Worker.Move.settles (h : w.Move i x s s' w') (q : ℕ) : Settles (s.conn q) (s'.conn q) := by
  cases h with
  | idle => exact .refl _
  | take e es => rw [setMutex_conn]; exact .refl _
  | skip => exact .refl _
  | leave e es => rw [setMutex_conn]; exact .refl _
  | reset e es stray =>
    rw [reset_conn]
    split
    · rename_i hq
      rw [hq]
      exact ⟨rfl, fun h => h, fun h => h⟩
    · exact .refl _
  | handle e es _ _ _ _ hh =>
    by_cases hq : q = e.place
    · exact hq ▸ hh.touches.settles
    · rw [hh.touches.conn q hq]
      exact .refl _

/-- A worker changes no connection but that of the place of the event in hand. -/
theorem Worker.Move.conn (h : w.Move i x s s' w') {q : ℕ} (hq : s'.conn q ≠ s.conn q) :
    ∃ e es, w.events = e :: es ∧ e.place = q := by
  cases h with
  | idle => exact absurd rfl hq
  | take e es => exact absurd (setMutex_conn ..) hq
  | skip => exact absurd rfl hq
  | leave e es => exact absurd (setMutex_conn ..) hq
  | reset e es stray _ he =>
    rw [reset_conn] at hq
    exact ⟨e, es, he, by by_contra hne; exact hq (if_neg (Ne.symm hne))⟩
  | handle e es _ _ _ he hh =>
    exact ⟨e, es, he, by by_contra hne; exact hq (hh.touches.conn q (Ne.symm hne))⟩

theorem Worker.Move.size (h : w.Move i x s s' w') : s'.size = s.size := by
  cases h with
  | reset e es stray => exact (shiftToBack_only ..).size
  | handle e es _ _ _ _ hh => exact hh.touches.size
  | _ => rfl

/-- A worker takes up no events by itself. -/
theorem Worker.Move.events (h : w.Move i x s s' w') : ∀ e ∈ w'.events, e ∈ w.events := by
  cases h with
  | idle _ _ he => rw [he]; exact fun e he => he
  | handle e es _ _ _ _ hh => rw [hh.events]; exact fun e he => he
  | skip e es _ he => rw [he]; exact fun e' he' => List.mem_cons_of_mem e he'
  | leave e es _ he => rw [he]; exact fun e' he' => List.mem_cons_of_mem e he'
  | _ => exact fun e he => he

/-- A worker that holds mutexes only for the event in hand still does so, and the other
workers hold those they held. -/
theorem Worker.Move.owned (h : w.Move i x s s' w')
    (ho : ∀ q, s.mutex q = some (.worker i) → ∃ e es, w.events = e :: es ∧ e.place = q) {q j : ℕ}
    (hq : s'.mutex q = some (.worker j)) :
    (j = i ∧ ∃ e es, w'.events = e :: es ∧ e.place = q) ∨
      (j ≠ i ∧ s.mutex q = some (.worker j)) := by
  have hsame : w'.events = w.events → s.mutex q = some (.worker j) →
      (j = i ∧ ∃ e es, w'.events = e :: es ∧ e.place = q) ∨
        (j ≠ i ∧ s.mutex q = some (.worker j)) := by
    intro he hm
    by_cases hj : j = i
    · exact .inl ⟨hj, he ▸ ho q (hj ▸ hm)⟩
    · exact .inr ⟨hj, hm⟩
  cases h with
  | idle _ _ he => exact hsame he hq
  | take e es _ he =>
    rw [setMutex_mutex] at hq
    split at hq
    · rename_i hqp
      exact .inl ⟨by simpa using hq.symm, e, es, he, hqp.symm⟩
    · exact hsame rfl hq
  | skip e es _ he hm =>
    refine .inr ⟨?_, hq⟩
    rintro rfl
    obtain ⟨e', es', he', rfl⟩ := ho q hq
    obtain ⟨rfl, -⟩ := List.cons.inj (he.symm.trans he')
    exact absurd (hm.symm.trans hq) (by simp)
  | reset e es stray =>
    refine hsame rfl ?_
    rwa [Service.resetLastActivityTime, (shiftToBack_only ..).mutex, setConn_mutex] at hq
  | handle e es _ _ _ _ hh => exact hsame hh.events ((hh.touches.mutex q).symm.trans hq)
  | leave e es _ he =>
    rw [setMutex_mutex] at hq
    split at hq
    · cases hq
    · rename_i hqp
      refine .inr ⟨?_, hq⟩
      rintro rfl
      obtain ⟨e', es', he', rfl⟩ := ho q hq
      obtain ⟨rfl, -⟩ := List.cons.inj (he.symm.trans he')
      exact hqp rfl

end Moves

/-- A worker never changes which connection a place holds. -/
theorem Worker.step_id {i : ℕ} {x : Input} {s s' : Service} {w w' : Worker} {out : Bool}
    (h : w.step i x s = some (s', w', out)) (q : ℕ) : (s'.conn q).id = (s.conn q).id :=
  ((Worker.step_move h).settles q).id

end Sphere.Http
