import Sphere.Http.ClosedQueue
import Sphere.Http.Scripts

/-! The bytes of the responses. `HttpConnection::write` assigns the buffer, so a response
that is written while the last one has not been sent replaces it. While the listener
answers only with an empty buffer, what the socket has taken and what is left in the
buffer are together all the responses, in order. -/

namespace Sphere.Http

open Lib Net

/-- All that the listener has passed to `write`. -/
def HttpConnection.promised (c : HttpConnection) : Bytes := (c.replies.map Responce.str).flatten

def Delivered (c : HttpConnection) : Prop := c.sent ++ c.write = c.promised

theorem SameOutput.delivered {c c' : HttpConnection} (h : SameOutput c c') (hc : Delivered c) :
    Delivered c' := by
  unfold Delivered HttpConnection.promised at hc ⊢
  rwa [h.sent, h.write, h.replies]

theorem parseRequest_output (c : HttpConnection) : SameOutput c (parseRequest c).1 := by
  unfold parseRequest
  split <;> exact ⟨rfl, rfl, rfl⟩

theorem tryReadRequest_output (reads : List ReadResult) {c : HttpConnection}
    (hv : c.valid = true) : SameOutput c (tryReadRequest c reads).1 := by
  have hreceive : SameOutput c (c.receive (received reads)) := ⟨rfl, rfl, rfl⟩
  have hparse := parseRequest_output (c.receive (received reads))
  rw [tryReadRequest_eq reads hv]
  split
  · exact hreceive
  · exact ⟨hparse.write, hparse.sent, hparse.replies⟩

/-- However many calls of `write` there are and however little they take. -/
theorem tryWriteResponce_delivered (writes : List WriteResult) {c : HttpConnection}
    (hc : Delivered c) : Delivered (tryWriteResponce c writes).1 := by
  induction writes generalizing c with
  | nil => exact hc
  | cons r writes ih =>
    unfold tryWriteResponce
    split
    · rename_i b hb
      have hdelivered : Delivered { c with toBufferedConnection := b } := by
        unfold BufferedConnection.writeFromBuffer at hb
        split at hb
        · rename_i size _
          cases hb
          have htake : c.sent ++ c.write.take size ++ c.write.drop size = c.sent ++ c.write := by
            rw [List.append_assoc, List.take_append_drop]
          exact htake.trans hc
        · cases hb
      split
      · exact hdelivered
      · exact ih hdelivered
    · exact hc

theorem tryWriteResponce_replies (writes : List WriteResult) (c : HttpConnection) :
    (tryWriteResponce c writes).1.replies = c.replies := by
  induction writes generalizing c with
  | nil => rfl
  | cons r writes ih =>
    unfold tryWriteResponce
    split
    · split
      · rfl
      · exact ih _
    · rfl

/-- In the middle of writing as well the socket has taken a prefix of the responses. -/
theorem written_prefix {c : HttpConnection} (hc : Delivered c) (writes : List WriteResult) :
    (tryWriteResponce c writes).1.sent <+: c.promised := by
  have hpromised : (tryWriteResponce c writes).1.promised = c.promised := by
    unfold HttpConnection.promised
    rw [tryWriteResponce_replies]
  rw [← hpromised]
  exact ⟨_, tryWriteResponce_delivered writes hc⟩

/-- One response goes into the empty buffer. -/
theorem putResponce_delivered {c : HttpConnection} {r : Responce} (hc : Delivered c)
    (hw : c.write = []) : Delivered (c.putResponce r) := by
  unfold Delivered HttpConnection.promised HttpConnection.putResponce at *
  rw [hw, List.append_nil] at hc
  simp [hc]

theorem onRequest_delivered {c : HttpConnection} {replies : List Responce} (hc : Delivered c)
    (hr : replies = [] ∨ (∃ r, replies = [r]) ∧ c.write = []) :
    Delivered (onRequest c replies) := by
  have hput : Delivered (replies.foldl HttpConnection.putResponce c) := by
    obtain rfl | ⟨⟨r, rfl⟩, hw⟩ := hr
    · exact hc
    · exact putResponce_delivered hc hw
  have hsame : SameOutput (replies.foldl HttpConnection.putResponce c) (onRequest c replies) := by
    unfold onRequest
    dsimp only
    split <;> exact ⟨rfl, rfl, rfl⟩
  exact hsame.delivered hput

/-- The listener answers a complete request only with an empty buffer, and at most once. -/
def AnswersEmpty (c : HttpConnection) (e : Event) (x : Script) : Prop :=
  e.isIn = true → Completes c x.reads →
    x.replies = [] ∨ (∃ r, x.replies = [r]) ∧ c.write = []

theorem serve_delivered {c : HttpConnection} {e : Event} {x : Script} (hv : c.valid = true)
    (hc : Delivered c) (ha : AnswersEmpty c e x) : Delivered (serve c e x).1 := by
  have hread := tryReadRequest_output x.reads hv
  have hwrite := tryWriteResponce_delivered x.writes hc
  unfold serve
  split_ifs with hin hout
  · split <;> rename_i h
    · rw [h] at hread
      exact hread.delivered hc
    · have hcomplete := completes_of_tryRead hv (congrArg Prod.snd h)
      rw [h] at hread
      exact onRequest_delivered (hread.delivered hc) (hread.write ▸ ha hin hcomplete)
  · split <;> rename_i h <;> rw [h] at hwrite
    · exact hwrite
    · exact SameOutput.delivered ⟨rfl, rfl, rfl⟩ hwrite
    · exact hwrite
  · exact hc

/-! The service. -/

/-- Where a worker is about to serve an event, the listener answers as said. -/
def ServesEmpty (σ : System) : Act → Prop
  | .worker i x => (σ.worker i).pc = .serving → ∀ e ∈ (σ.worker i).events.head?,
    AnswersEmpty (σ.service.conn e.place) e x.script
  | _ => True

theorem Worker.Move.delivered {i : ℕ} {x : Script} {s s' : Service} {w w' : Worker}
    (h : w.Move i x s s' w') (hc : ∀ q, Delivered (s.conn q))
    (hs : w.pc = .serving → ∀ e ∈ w.events.head?, (s.conn e.place).valid = true ∧
      AnswersEmpty (s.conn e.place) e x) (q : ℕ) : Delivered (s'.conn q) := by
  cases h with
  | idle => exact hc q
  | take => rw [setMutex_conn]; exact hc q
  | skip => exact hc q
  | leave => rw [setMutex_conn]; exact hc q
  | reset e es stray =>
    rw [reset_conn]
    split
    · exact SameOutput.delivered ⟨rfl, rfl, rfl⟩ (hc e.place)
    · exact hc q
  | handle e es _ _ _ he hh =>
    by_cases hq : q = e.place
    · subst hq
      refine hh.output.delivered ?_
      unfold Worker.served
      split
      · rename_i hpc
        obtain ⟨hv, ha⟩ := hs hpc e (by simp [he])
        exact serve_delivered hv (hc e.place) ha
      · exact hc e.place
    · rw [hh.touches.conn q hq]
      exact hc q

structure System.Delivers (σ : System) : Prop where
  closes : σ.Closes
  conn : ∀ p, Delivered (σ.service.conn p)

theorem System.Delivers.step {σ σ' : System} {a : Act} (h : σ.Delivers) (hm : ServesEmpty σ a)
    (hstep : σ.step a = some σ') : σ'.Delivers := by
  refine ⟨h.closes.step hstep, fun p => ?_⟩
  unfold System.step at hstep
  split at hstep
  · cases hstep
  · cases a with
    | acceptor x =>
      obtain ⟨⟨s, a⟩, hs, rfl⟩ := Option.map_eq_some_iff.mp hstep
      obtain hkept | ⟨-, -, id, now, hnew⟩ := Acceptor.step_carries hs h.closes.pool p
      · exact SameOutput.delivered ⟨hkept.write, hkept.sent, hkept.replies⟩ (h.conn p)
      · rw [show System.service _ = s from rfl, hnew]
        rfl
    | worker i x =>
      obtain ⟨⟨s, w, out⟩, hs, rfl⟩ := Option.map_eq_some_iff.mp hstep
      refine (Worker.step_move hs).delivered h.conn (fun hpc e he => ⟨?_, hm hpc e he⟩) p
      -- the worker saw the connection open when it took the event up
      have hstage := h.closes.pool.stage (.worker i)
      obtain ⟨es, he⟩ := List.head?_eq_some_iff.mp (Option.mem_def.mp he)
      rw [show σ.pool.stage (.worker i) = .saw e.place by
        simp [System.pool, System.stage, Service.pool, Worker.stage, hpc, he]] at hstage
      exact hstage.2
    | clock t =>
      cases hstep
      exact h.conn p
    | raise i e =>
      simp only at hstep
      split at hstep
      · obtain ⟨s, hs, rfl⟩ := Option.map_eq_some_iff.mp hstep
        unfold Service.raise at hs
        split at hs
        · split at hs <;> cases hs
          by_cases hp : p = e.place
          · rw [show System.service _ = _ from rfl, setConn_conn, if_pos hp]
            exact SameOutput.delivered ⟨rfl, rfl, rfl⟩ (h.conn e.place)
          · rw [show System.service _ = _ from rfl, setConn_conn, if_neg hp]
            exact h.conn p
        · cases hs
      · cases hstep

theorem System.start_delivers (connTimeo kaConnTimeo : ℕ) :
    (System.start connTimeo kaConnTimeo).Delivers :=
  ⟨System.start_closes _ _, fun _ => rfl⟩

/-- In every run in which the listener answers as said, at every place: the socket has
taken a prefix of the responses, also in the middle of writing, and the buffer of an open
connection holds the rest. -/
theorem responses_delivered {connTimeo kaConnTimeo : ℕ} {as : List Act} {σ : System}
    (hm : Transition.Along System.step ServesEmpty (System.start connTimeo kaConnTimeo) as)
    (h : (System.start connTimeo kaConnTimeo).run as = some σ) (p : ℕ) :
    (σ.service.conn p).sent <+: (σ.service.conn p).promised ∧
    (∀ writes, (tryWriteResponce (σ.service.conn p) writes).1.sent <+:
      (σ.service.conn p).promised) ∧
    ((σ.service.conn p).valid = true →
      (σ.service.conn p).sent ++ (σ.service.conn p).write = (σ.service.conn p).promised) := by
  have hd : System.Delivers σ := Transition.run_invariant (I := System.Delivers)
    (fun _ _ _ hi hm hs => hi.step hm hs) (System.start_delivers _ _) hm h
  refine ⟨⟨_, hd.conn p⟩, fun writes => ?_, fun _ => hd.conn p⟩
  exact written_prefix (hd.conn p) writes

/-- An event is served with an empty buffer and at most one answer. -/
def servesBare (σ : System) : Act → Bool
  | .worker i x => (σ.worker i).pc = .serving →
    (σ.worker i).events.head?.all fun e =>
      x.script.replies.length ≤ 1 ∧ (e.isIn → (σ.service.conn e.place).write = [])
  | _ => true

theorem servesEmpty_of_bare {σ : System} {a : Act} (h : servesBare σ a = true) :
    ServesEmpty σ a := by
  cases a with
  | worker i x =>
    intro hpc e he hin _
    rw [Option.mem_def] at he
    simp only [servesBare, hpc, he, Option.all_some, true_implies, decide_eq_true_eq] at h
    obtain ⟨hlen, hwrite⟩ := h
    cases hr : x.script.replies with
    | nil => exact .inl rfl
    | cons r rs =>
      rw [hr] at hlen
      obtain rfl : rs = [] := by simpa using hlen
      exact .inr ⟨⟨r, rfl⟩, hwrite hin⟩
  | _ => trivial

/-- A client sends a request, and the socket takes the response in two pieces. -/
def answeredRun : List Act :=
  accepts 8 ++ [.raise 0 ⟨0, 0, true, false⟩] ++ works 0 3 ++
    reads 0 (oneRead (lit "GET a HTTP/1.1\r\n\r\n")) [⟨lit "1.1", 200, lit "OK", [], []⟩] ++
    works 0 3 ++ [.raise 0 ⟨0, 0, false, true⟩] ++ works 0 3 ++
    [.worker 0 { plainInput with script := ⟨[], [.wrote 9], []⟩ }]

theorem responses_delivered_partly :
    ∃ σ, (System.start 20 60).run answeredRun = some σ ∧
      (σ.service.conn 0).sent = lit "HTTP/1.1 " ∧
      (σ.service.conn 0).write = lit "200 OK\r\n\r\n" ∧
      (σ.service.conn 0).sent ++ (σ.service.conn 0).write = (σ.service.conn 0).promised := by
  have hrun : ((System.start 20 60).run answeredRun).map (fun σ => ((σ.service.conn 0).valid,
      (σ.service.conn 0).sent, (σ.service.conn 0).write)) =
      some (true, lit "HTTP/1.1 ", lit "200 OK\r\n\r\n") := by decide +kernel
  have hbare : Transition.Along System.step (fun σ a => servesBare σ a = true)
      (System.start 20 60) answeredRun := by decide +kernel
  have hempty : Transition.Along System.step ServesEmpty (System.start 20 60) answeredRun :=
    hbare.imp (I := fun _ => True) (fun _ _ _ _ _ _ => trivial)
      (fun _ _ _ => servesEmpty_of_bare) trivial
  obtain ⟨σ, hσ, hq⟩ := Option.map_eq_some_iff.mp hrun
  simp only [Prod.mk.injEq] at hq
  obtain ⟨hv, hsent, hwrite⟩ := hq
  exact ⟨σ, hσ, hsent, hwrite, (responses_delivered hempty hσ 0).2.2 hv⟩

/-- A client on a kept connection sends its second request before it has read anything of
the first response. -/
def pipelinedRun : List Act :=
  let request := oneRead (lit "GET a HTTP/1.1\r\nConnection: Keep-Alive\r\n\r\n")
  accepts 8 ++ [.raise 0 ⟨0, 0, true, false⟩] ++ works 0 3 ++
    reads 0 request [⟨lit "1.1", 200, lit "OK", [], []⟩] ++ works 0 3 ++
    [.raise 0 ⟨0, 0, true, true⟩] ++ works 0 3 ++
    reads 0 request [⟨lit "1.1", 404, lit "Not Found", [], []⟩] ++ works 0 3 ++
    [.raise 0 ⟨0, 0, false, true⟩] ++ works 0 4

theorem response_lost :
    ∃ σ, (System.start 20 60).run pipelinedRun = some σ ∧ (σ.service.conn 0).valid = true ∧
      (σ.service.conn 0).sent = lit "HTTP/1.1 404 Not Found\r\n\r\n" ∧
      ¬ (σ.service.conn 0).sent <+: (σ.service.conn 0).promised ∧
      (σ.service.conn 0).sent ++ (σ.service.conn 0).write ≠ (σ.service.conn 0).promised := by
  have hrun : ((System.start 20 60).run pipelinedRun).map (fun σ => ((σ.service.conn 0).valid,
      (σ.service.conn 0).sent, (σ.service.conn 0).replies)) =
      some (true, lit "HTTP/1.1 404 Not Found\r\n\r\n",
        [⟨lit "1.1", 200, lit "OK", [], []⟩, ⟨lit "1.1", 404, lit "Not Found", [], []⟩]) := by
    decide +kernel
  obtain ⟨σ, hσ, hq⟩ := Option.map_eq_some_iff.mp hrun
  simp only [Prod.mk.injEq] at hq
  obtain ⟨hv, hsent, hreplies⟩ := hq
  have hprefix : ¬ (σ.service.conn 0).sent <+: (σ.service.conn 0).promised := by
    unfold HttpConnection.promised
    rw [hsent, hreplies]
    decide +kernel
  exact ⟨σ, hσ, hv, hsent, hprefix, fun heq => hprefix ⟨_, heq⟩⟩

end Sphere.Http
