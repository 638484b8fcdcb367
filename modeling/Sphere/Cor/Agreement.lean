import Sphere.Cor.Handling
import Sphere.Http.Scripts

/-! One client served by `HttpWorker` and by `CoroutineWorker`. The progress that the one
keeps in `epoll_option_` the other keeps in the point its routine waits at; as long as the
client sends nothing while a response is pending the two cannot be told apart. -/

namespace Sphere.Cor

open Lib Net Http SlotPool Settle

/-- What the client can tell of a connection, and what epoll is told, is the same. -/
structure Alike (c d : HttpConnection) : Prop where
  valid : d.valid = c.valid
  write : d.write = c.write
  sent : d.sent = c.sent
  keepAlive : d.keepAlive = c.keepAlive
  epollOption : d.epollOption = c.epollOption

/-- The option of a connection that waits for a request, and of one that has a response to
write. -/
def idleOption : OPTION := READ + ET_ONESHOT

def busyOption (keepAlive : Bool) : OPTION :=
  (if keepAlive then idleOption else idleOption - READ + ET_ONESHOT) + WRITE + ET_ONESHOT

/-- Both connections wait for the rest of a request. -/
structure Reads (c d : HttpConnection) (stage : Option Point) : Prop where
  alike : Alike c d
  valid : c.valid = true
  read : d.read = c.read
  write : c.write = []
  option : c.epollOption = idleOption
  stage : stage = none ∨ stage = some .reading

/-- Both connections have something left to write. -/
structure Writes (c d : HttpConnection) (stage : Option Point) : Prop where
  alike : Alike c d
  valid : c.valid = true
  read : c.keepAlive = true → d.read = c.read
  write : c.write ≠ []
  option : c.epollOption = busyOption c.keepAlive
  stage : stage = some .replied ∨ stage = some .writing

def Armed (c : HttpConnection) : Prop := c.watch = .armed c.epollOption

inductive Twins (c d : HttpConnection) (stage : Option Point) : Prop
  | reads (h : Reads c d stage) (hc : Armed c) (hd : Armed d)
  | writes (h : Writes c d stage) (hc : Armed c) (hd : Armed d)
  | closed (h : Alike c d) (hv : c.valid = false) (hc : c.watch = .absent) (hd : d.watch = .absent)

/-- What the two workers make of an event. -/
structure Agrees (a : HttpConnection × Bool) (o : Outcome) : Prop where
  out : o.out = a.2
  alike : Alike a.1 o.conn
  twins : a.2 = false → Twins a.1 o.conn o.stage

section Connections

variable {c d : HttpConnection} {stage : Option Point}

theorem Alike.subscribe (h : Alike c d) (opt : OPTION) :
    Alike (c.subscribe opt).arm (d.subscribe opt).arm := by
  have ho : (d.subscribe opt).epollOption = (c.subscribe opt).epollOption := by
    simp only [HttpConnection.subscribe, h.epollOption]
  exact ⟨h.valid, h.write, h.sent, h.keepAlive, ho⟩

theorem Alike.alter {c' d' : HttpConnection} (h : Alike c d) (hc : Alike c c') (hd : Alike d d') :
    Alike c' d' :=
  ⟨hd.valid.trans (h.valid.trans hc.valid.symm), hd.write.trans (h.write.trans hc.write.symm),
    hd.sent.trans (h.sent.trans hc.sent.symm),
    hd.keepAlive.trans (h.keepAlive.trans hc.keepAlive.symm),
    hd.epollOption.trans (h.epollOption.trans hc.epollOption.symm)⟩

/-- Neither relation looks at the rest of the connections. -/
theorem Reads.alter {c' d' : HttpConnection} (h : Reads c d stage) (hc : Alike c c')
    (hd : Alike d d') (hcr : c'.read = c.read) (hdr : d'.read = d.read) : Reads c' d' stage :=
  ⟨h.alike.alter hc hd, hc.valid.trans h.valid, hdr.trans (h.read.trans hcr.symm),
    hc.write.trans h.write, hc.epollOption.trans h.option, h.stage⟩

theorem Writes.alter {c' d' : HttpConnection} (h : Writes c d stage) (hc : Alike c c')
    (hd : Alike d d') (hcr : c'.read = c.read) (hdr : d'.read = d.read) : Writes c' d' stage := by
  refine ⟨h.alike.alter hc hd, hc.valid.trans h.valid, fun hk => ?_, ?_, ?_, h.stage⟩
  · exact hdr.trans ((h.read (hc.keepAlive.symm.trans hk)).trans hcr.symm)
  · rw [hc.write]
    exact h.write
  · rw [hc.epollOption, hc.keepAlive]
    exact h.option

theorem Alike.close (h : Alike c d) : Alike c.close d.close :=
  ⟨rfl, h.write, h.sent, h.keepAlive, rfl⟩

theorem Agrees.close (h : Alike c d) : Agrees (c.close, false) ⟨d.close, none, false⟩ :=
  ⟨rfl, h.close, fun _ => .closed h.close rfl rfl rfl⟩

theorem Agrees.out_of (h : Alike c d) : Agrees (c, true) ⟨d, none, true⟩ :=
  ⟨rfl, h, fun hout => (by cases hout)⟩

/-- The end of `work` and of `serve_client` once a request has been answered or given up. -/
theorem finish_agrees (h : Alike c d) (hv : c.valid = true) (hr : d.read = c.read)
    (hw : c.write = []) (ho : c.epollOption = idleOption) :
    Agrees (goOn c .finish) (serveEnd d) := by
  have hne : c.epollOption ≠ ET_ONESHOT := by
    rw [ho]
    decide
  unfold serveEnd goOn
  dsimp only
  rw [h.epollOption, if_neg hne, if_neg hne]
  have halike :
      Alike (c.subscribe UNKNOWN).arm ({ d with routine := none }.subscribe UNKNOWN).arm :=
    Alike.subscribe (d := { d with routine := none })
      ⟨h.valid, h.write, h.sent, h.keepAlive, h.epollOption⟩ UNKNOWN
  refine ⟨rfl, halike, fun _ => .reads ⟨halike, hv, hr, hw, ?_, .inl rfl⟩ rfl rfl⟩
  show c.epollOption + UNKNOWN + ET_ONESHOT = idleOption
  rw [ho]
  decide

theorem finish_closes (h : Alike c d) (hv : c.valid = true) (ho : c.epollOption = ET_ONESHOT) :
    Agrees (goOn c .finish) (serveEnd d) := by
  unfold serveEnd goOn
  dsimp only
  rw [h.epollOption, if_pos ho, if_pos ho, if_pos (h.valid.trans hv)]
  exact .close h

/-- A batch of reads comes to the same. -/
structure SameRead (a b : HttpConnection × Option Next) : Prop where
  next : b.2 = a.2
  alike : Alike a.1 b.1
  read : b.1.read = a.1.read
  req : a.2 = none → b.1.req = a.1.req

theorem tryRead_same (h : Alike c d) (hv : c.valid = true) (hr : d.read = c.read)
    (reads : List ReadResult) : SameRead (tryReadRequest c reads) (tryReadRequest d reads) := by
  have hreceive : Alike (c.receive (received reads)) (d.receive (received reads)) :=
    ⟨h.valid, h.write, h.sent, h.keepAlive, h.epollOption⟩
  have hread : (d.receive (received reads)).read = (c.receive (received reads)).read := by
    simp only [HttpConnection.receive, hr]
  rw [tryReadRequest_eq reads hv, tryReadRequest_eq reads (h.valid.trans hv)]
  split
  · exact ⟨rfl, hreceive, hread, fun hnone => (by cases hnone)⟩
  · unfold parseRequest
    rw [hread]
    split
    · exact ⟨rfl, ⟨h.valid, h.write, h.sent, rfl, h.epollOption⟩, hread, fun _ => rfl⟩
    · exact ⟨rfl, hreceive, hread, fun hnone => (by cases hnone)⟩
    · exact ⟨rfl, hreceive, hread, fun hnone => (by cases hnone)⟩
    · exact ⟨rfl, hreceive, hread, fun hnone => (by cases hnone)⟩

/-- Reading touches neither the response nor the option. -/
theorem tryRead_keeps (hv : c.valid = true) (reads : List ReadResult) :
    (tryReadRequest c reads).1.write = c.write ∧
      (tryReadRequest c reads).1.epollOption = c.epollOption := by
  rw [tryReadRequest_eq reads hv]
  split
  · exact ⟨rfl, rfl⟩
  · unfold parseRequest
    split <;> exact ⟨rfl, rfl⟩

theorem str_ne_nil (r : Responce) : r.str ≠ [] := by
  simp [Responce.str, lit]

variable {e : Event} {x : Http.Input} {y : Input}

/-- How the two go on when there is no request yet. -/
theorem next_agrees (h : Reads c d stage) (next : Next) :
    Agrees (goOn c next) (readNext d next) := by
  cases next with
  | thrown err => exact .out_of h.alike
  | undefined => exact .out_of h.alike
  | close k => exact .close h.alike
  | rearm =>
    refine ⟨rfl, h.alike.subscribe READ, fun _ =>
      .reads ⟨h.alike.subscribe READ, h.valid, h.read, h.write, ?_, .inr rfl⟩ rfl rfl⟩
    show c.epollOption + READ + ET_ONESHOT = idleOption
    rw [h.option]
    decide
  | finish => exact finish_agrees h.alike h.valid h.read h.write h.option

/-- The connection has a response to write. -/
structure Answered (c : HttpConnection) (reply : Responce) (c' : HttpConnection) : Prop where
  valid : c'.valid = c.valid
  write : c'.write = reply.str
  sent : c'.sent = c.sent
  keepAlive : c'.keepAlive = c.keepAlive
  option : c.epollOption = idleOption → c'.epollOption = busyOption c.keepAlive
  read : c.keepAlive = true → c'.read = []

theorem onRequest_answered (c : HttpConnection) (reply : Responce) :
    Answered c reply (onRequest c [reply]) := by
  unfold onRequest
  cases hk : c.keepAlive
  · refine ⟨?_, ?_, ?_, ?_, fun ho => ?_, fun h => absurd (hk.symm.trans h) (by simp)⟩ <;>
      simp only [List.foldl_cons, List.foldl_nil, HttpConnection.putResponce, hk,
        Bool.false_eq_true, if_false] <;> first | rfl | exact hk | skip
    simp only [HttpConnection.subscribe, HttpConnection.unsubscribe, ho]
    rfl
  · refine ⟨?_, ?_, ?_, ?_, fun ho => ?_, fun _ => ?_⟩ <;>
      simp only [List.foldl_cons, List.foldl_nil, HttpConnection.putResponce, hk, if_true] <;>
      first | rfl | exact hk | skip
    simp only [HttpConnection.subscribe, ho]
    rfl

theorem modAll_answered (d : HttpConnection) (reply : Responce) :
    Answered d reply (modAll (answer d reply) (answerMods d)) ∧
      (modAll (answer d reply) (answerMods d)).watch =
        .armed (modAll (answer d reply) (answerMods d)).epollOption := by
  cases hk : d.keepAlive
  · have hd : modAll (answer d reply) (answerMods d) =
        (((answer d reply).unsubscribe READ).arm.subscribe WRITE).arm := by
      unfold answerMods
      rw [hk]
      rfl
    rw [hd]
    obtain ⟨hv, hs, hkeep⟩ : (((answer d reply).unsubscribe READ).arm.subscribe WRITE).arm.valid =
        d.valid ∧ (((answer d reply).unsubscribe READ).arm.subscribe WRITE).arm.sent = d.sent ∧
        (((answer d reply).unsubscribe READ).arm.subscribe WRITE).arm.keepAlive = d.keepAlive := by
      simp only [HttpConnection.arm, HttpConnection.subscribe, HttpConnection.unsubscribe, answer,
        HttpConnection.putResponce, and_self]
    refine ⟨⟨hv, rfl, hs, hkeep, fun ho => ?_,
      fun h => absurd (hk.symm.trans h) (by simp)⟩, rfl⟩
    show d.epollOption - READ + ET_ONESHOT + WRITE + ET_ONESHOT = _
    rw [ho, hk]
    decide
  · have hd : modAll (answer d reply) (answerMods d) = ((answer d reply).subscribe WRITE).arm := by
      unfold answerMods
      rw [hk]
      rfl
    rw [hd]
    obtain ⟨hv, hs, hkeep⟩ : ((answer d reply).subscribe WRITE).arm.valid = d.valid ∧
        ((answer d reply).subscribe WRITE).arm.sent = d.sent ∧
        ((answer d reply).subscribe WRITE).arm.keepAlive = d.keepAlive := by
      simp only [HttpConnection.arm, HttpConnection.subscribe, answer, HttpConnection.putResponce,
        and_self]
    refine ⟨⟨hv, rfl, hs, hkeep, fun ho => ?_, fun _ => rfl⟩, rfl⟩
    show d.epollOption + WRITE + ET_ONESHOT = _
    rw [ho, hk]
    decide

theorem busyOption_ne (k : Bool) : busyOption k ≠ ET_ONESHOT := by
  cases k <;> decide

theorem busyOption_add (k : Bool) :
    busyOption k + UNKNOWN + ET_ONESHOT = busyOption k ∧
      busyOption k + WRITE + ET_ONESHOT = busyOption k := by
  cases k <;> decide

/-- The same once there is one. -/
theorem answer_agrees (h : Reads c d stage) (reply : Responce) :
    Agrees (goOn (onRequest c [reply]) .finish)
      ⟨modAll (answer d reply) (answerMods d), some .replied, false⟩ := by
  have hc := onRequest_answered c reply
  obtain ⟨hd, hwatch⟩ := modAll_answered d reply
  have hco := hc.option h.option
  have hdo := hd.option (h.alike.epollOption.trans h.option)
  rw [h.alike.keepAlive] at hdo
  unfold goOn
  dsimp only
  rw [if_neg (by rw [hco]; exact busyOption_ne _)]
  have hoption : ((onRequest c [reply]).subscribe UNKNOWN).arm.epollOption =
      busyOption c.keepAlive := by
    show (onRequest c [reply]).epollOption + UNKNOWN + ET_ONESHOT = _
    rw [hco]
    exact (busyOption_add _).1
  have halike : Alike ((onRequest c [reply]).subscribe UNKNOWN).arm
      (modAll (answer d reply) (answerMods d)) := by
    exact ⟨hd.valid.trans (h.alike.valid.trans hc.valid.symm), hd.write.trans hc.write.symm,
      hd.sent.trans (h.alike.sent.trans hc.sent.symm),
      hd.keepAlive.trans (h.alike.keepAlive.trans hc.keepAlive.symm), hdo.trans hoption.symm⟩
  refine ⟨rfl, halike, fun _ => .writes ⟨halike, hc.valid.trans h.valid, fun hk => ?_, ?_, ?_,
    .inl rfl⟩ rfl hwatch⟩
  · have hkc := hc.keepAlive.symm.trans hk
    exact (hd.read (h.alike.keepAlive.trans hkc)).trans (hc.read hkc).symm
  · exact fun hnil => str_ne_nil reply (hc.write.symm.trans hnil)
  · exact hoption.trans (congrArg busyOption hc.keepAlive.symm)

/-- An event is served while both wait for a request. -/
theorem read_agrees (h : Reads c d stage) (he : e.isIn = true)
    (hreads : y.reads = x.script.reads) (hguess : y.guess = x.guess)
    (hreply : (tryReadRequest c x.script.reads).2 = none → x.script.replies = [y.reply]) :
    Agrees (Http.handled c e x) (readHandled d y) := by
  have hsame := tryRead_same h.alike h.valid h.read x.script.reads
  obtain ⟨hwrite, hoption⟩ := tryRead_keeps h.valid x.script.reads
  have hvalid := (tryReadRequest_same c x.script.reads).valid
  unfold Http.handled serve readHandled
  rw [if_pos he, hreads]
  generalize tryReadRequest c x.script.reads = a at *
  generalize tryReadRequest d x.script.reads = b at *
  obtain ⟨c', next⟩ := a
  obtain ⟨d', next'⟩ := b
  obtain rfl : next' = next := hsame.next
  have hreading : Reads c' d' none := ⟨hsame.alike, hvalid.trans h.valid, hsame.read,
    hwrite.trans h.write, hoption.trans h.option, .inl rfl⟩
  cases next' with
  | none =>
    dsimp only
    rw [hreply rfl]
    exact answer_agrees hreading _
  | some next =>
    cases next with
    | undefined =>
      dsimp only
      rw [if_pos rfl, hguess]
      exact next_agrees hreading x.guess
    | _ =>
      dsimp only
      rw [if_neg (by simp)]
      exact next_agrees hreading _

/-- A batch of writes comes to the same, and to one of four things. -/
structure SameWrite (c d : HttpConnection) (a b : HttpConnection × (Next ⊕ Bool)) : Prop where
  next : b.2 = a.2
  alike : Alike a.1 b.1
  read : a.1.read = c.read ∧ b.1.read = d.read
  keepAlive : a.1.keepAlive = c.keepAlive
  option : a.1.epollOption = c.epollOption
  ends : a.2 = .inr true ∧ a.1.write = [] ∨ a.2 = .inr false ∧ a.1.write ≠ [] ∨
    (∃ err, a.2 = .inl (.thrown err)) ∨ a.2 = .inl (.close .finish)

theorem tryWrite_same (h : Alike c d) (hv : c.valid = true) (hw : c.write ≠ [])
    (writes : List WriteResult) :
    SameWrite c d (tryWriteResponce c writes) (tryWriteResponce d writes) := by
  induction writes generalizing c d with
  | nil =>
    rw [tryWrite_nil hv, tryWrite_nil (h.valid.trans hv)]
    exact ⟨rfl, h, ⟨rfl, rfl⟩, rfl, rfl, .inr (.inl ⟨rfl, hw⟩)⟩
  | cons r writes ih =>
    cases r with
    | wrote n =>
      have htaken : Alike (taken c n) (taken d n) := by
        refine ⟨h.valid, ?_, ?_, h.keepAlive, h.epollOption⟩ <;> unfold taken
        · rw [h.write]
        · rw [h.write, h.sent]
      rw [tryWrite_wrote hv, tryWrite_wrote (h.valid.trans hv), htaken.write]
      by_cases hempty : (taken c n).write = []
      · rw [if_pos hempty, if_pos hempty]
        exact ⟨rfl, htaken, ⟨rfl, rfl⟩, rfl, rfl, .inl ⟨rfl, hempty⟩⟩
      · rw [if_neg hempty, if_neg hempty]
        have hrest := ih htaken hv hempty
        exact ⟨hrest.next, hrest.alike, hrest.read, hrest.keepAlive, hrest.option, hrest.ends⟩
    | fail errno =>
      rw [tryWrite_fail hv, tryWrite_fail (h.valid.trans hv)]
      refine ⟨rfl, h, ⟨rfl, rfl⟩, rfl, rfl, ?_⟩
      obtain hf | hf := writeFailed_cases errno
      · exact .inr (.inl ⟨hf, hw⟩)
      · exact .inr (.inr hf)

/-- An event is served while both have something to write. -/
theorem write_agrees (h : Writes c d stage) (hin : e.isIn = false) (hout : e.isOut = true)
    (hwrites : y.writes = x.script.writes) :
    Agrees (Http.handled c e x) (writeHandled d y) := by
  have hsame := tryWrite_same h.alike h.valid h.write x.script.writes
  have hvalid := (tryWriteResponce_same x.script.writes c).valid
  unfold Http.handled serve writeHandled
  rw [hin, hout, hwrites]
  generalize tryWriteResponce c x.script.writes = a at *
  generalize tryWriteResponce d x.script.writes = b at *
  obtain ⟨c', next⟩ := a
  obtain ⟨d', next'⟩ := b
  obtain rfl : next' = next := hsame.next
  have halike := hsame.alike
  have hv : c'.valid = true := hvalid.trans h.valid
  have hk : c'.keepAlive = c.keepAlive := hsame.keepAlive
  have ho : c'.epollOption = busyOption c'.keepAlive := by
    rw [hk]
    exact hsame.option.trans h.option
  have hread : c'.keepAlive = true → d'.read = c'.read := fun hkeep =>
    hsame.read.2.trans ((h.read (hk.symm.trans hkeep)).trans hsame.read.1.symm)
  dsimp only at halike
  obtain ⟨rfl, hw⟩ | ⟨rfl, hw⟩ | ⟨err, rfl⟩ | rfl := hsame.ends
  · -- the response is written: a kept connection reads again, another is closed
    have hunsub : Alike (c'.unsubscribe WRITE) (d'.unsubscribe WRITE).arm := by
      refine ⟨halike.valid, halike.write, halike.sent, halike.keepAlive, ?_⟩
      show d'.epollOption - WRITE + ET_ONESHOT = c'.epollOption - WRITE + ET_ONESHOT
      rw [halike.epollOption]
    have hoption : (c'.unsubscribe WRITE).epollOption =
        if c'.keepAlive then idleOption else ET_ONESHOT := by
      show c'.epollOption - WRITE + ET_ONESHOT = _
      rw [ho]
      cases c'.keepAlive <;> decide
    cases hkeep : c'.keepAlive <;> rw [hkeep] at hoption
    · exact finish_closes hunsub hv hoption
    · exact finish_agrees hunsub hv (hread hkeep) hw hoption
  · have hne : c'.epollOption ≠ ET_ONESHOT := by
      rw [ho]
      exact busyOption_ne _
    have hd : d'.write ≠ [] := by
      rw [halike.write]
      exact hw
    have hoption : c'.epollOption + UNKNOWN + ET_ONESHOT = busyOption c'.keepAlive ∧
        d'.epollOption + WRITE + ET_ONESHOT = busyOption c'.keepAlive := by
      rw [halike.epollOption, ho]
      exact busyOption_add _
    have harm : Alike (c'.subscribe UNKNOWN).arm (d'.subscribe WRITE).arm :=
      ⟨halike.valid, halike.write, halike.sent, halike.keepAlive,
        hoption.2.trans hoption.1.symm⟩
    simp only [Bool.false_eq_true, if_false, if_true, goOn, reduceCtorEq, hne, hd]
    exact ⟨rfl, harm, fun _ => .writes ⟨harm, hv, hread, hw, hoption.1, .inr rfl⟩ rfl rfl⟩
  · exact .out_of halike
  · simp only [Bool.false_eq_true, if_false, if_true, goOn, reduceCtorEq, serveEnd]
    exact .close halike

end Connections

/-! The two services. -/

/-- What happens to one client: worker `worker` gets an event of it, `EPOLLIN` or else
`EPOLLOUT`, and the socket answers so while it is served. `guess` is how the parser goes on
where it is undefined. -/
structure Round where
  worker : ℕ
  isIn : Bool
  reads : List ReadResult
  writes : List WriteResult
  guess : Next

def Round.event (r : Round) (p id : ℕ) : Event := ⟨p, id, r.isIn, !r.isIn⟩

/-- What can be told of a round: epoll does not watch for such an event, the worker does not
come to an end, or what the socket has taken by then, whether it is open and whether an
exception has left the worker. -/
inductive Told
  | unarmed
  | stuck
  | served (sent : Bytes) (valid halted : Bool)
  deriving DecidableEq, Repr

def Told.over : Told → Bool
  | .served _ _ halted => halted
  | _ => false

/-- What is told of a client's rounds, until an exception leaves a worker. -/
def talk {σ : Type} (round : Round → σ → σ × Told) : List Round → σ → List Told
  | [], _ => []
  | r :: rs, s =>
    (round r s).2 :: if (round r s).2.over then [] else talk round rs (round r s).1

/-- The listener writes its answer to the request that is in the buffer by then. -/
def Round.httpInput (r : Round) (f : Request → Responce) (c : HttpConnection) : Http.Input :=
  ⟨⟨r.reads, r.writes, [f (tryReadRequest c r.reads).1.req]⟩, r.guess, false, .empty⟩

def Round.input (r : Round) (f : Request → Responce) (c : HttpConnection) : Input :=
  ⟨r.reads, r.writes, f (tryReadRequest c r.reads).1.req, r.guess, false, none, .empty⟩

/-- `HttpWorker` with the listener `f`. -/
def httpRound (f : Request → Responce) (p : ℕ) (r : Round) (s : Service) : Service × Told :=
  match s.raise (r.event p (s.conn p).id) with
  | none => (s, .unarmed)
  | some s =>
    match Http.Worker.handle r.worker (r.httpInput f (s.conn p)) 11 s
        ⟨.looping, [r.event p (s.conn p).id], 0⟩ with
    | none => (s, .stuck)
    | some (s', _, out) => (s', .served (s'.conn p).sent (s'.conn p).valid out)

/-- `CoroutineWorker` with the listener `f`. -/
def corRound (f : Request → Responce) (p : ℕ) (r : Round) (st : State) : State × Told :=
  match st.service.raise (r.event p (st.service.conn p).id) with
  | none => (st, .unarmed)
  | some s =>
    match Worker.handle r.worker (r.input f (s.conn p)) 15 { st with service := s }
        ⟨.looping, [r.event p (s.conn p).id], 0, 0, 0⟩ with
    | none => (st, .stuck)
    | some (st', _, out) =>
      (st', .served (st'.service.conn p).sent (st'.service.conn p).valid out)

/-- The client sends nothing, not even the end of the stream, while it waits for bytes of a
response. -/
def Polite (f : Request → Responce) (p : ℕ) : List Round → Service → Prop
  | [], _ => True
  | r :: rs, s =>
    (r.isIn = true → (s.conn p).write = []) ∧ Polite f p rs (httpRound f p r s).1

instance decidablePolite (f : Request → Responce) (p : ℕ) :
    ∀ (rs : List Round) (s : Service), Decidable (Polite f p rs s)
  | [], _ => .isTrue trivial
  | _ :: rs, _ =>
    have := decidablePolite f p rs
    inferInstanceAs (Decidable (_ ∧ _))

/-- The two services have the same of the client at place `p`. -/
structure Same (p : ℕ) (s : Service) (st : State) : Prop where
  mutex : s.mutex p = none
  free : s.closingMutex = none
  mutex' : st.service.mutex p = none
  free' : st.service.closingMutex = none
  queued : Queued st
  twins : ∃ stage, ((st.service.conn p).valid = true → Stands st p stage) ∧
    Twins (s.conn p) (st.service.conn p) stage

section Rounds

variable {p : ℕ} {s : Service} {st : State} {r : Round}

/-- Epoll reports an event that the connection is watched for. -/
theorem raise_armed (h : Armed (s.conn p)) :
    s.raise (r.event p (s.conn p).id) =
      if (s.conn p).epollOption.has (if r.isIn then READ else WRITE) then
        some (s.setConn p { s.conn p with watch := .disabled })
      else none := by
  unfold Service.raise Round.event
  dsimp only
  rw [h]
  cases r.isIn <;> simp

theorem raise_absent (h : (s.conn p).watch = .absent) :
    s.raise (r.event p (s.conn p).id) = none := by
  unfold Service.raise Round.event
  dsimp only
  rw [h]

/-- The connection while an event of it is served. -/
def reported (c : HttpConnection) : HttpConnection := { c with watch := .disabled }

theorem httpRound_served (f : Request → Responce) (ha : Armed (s.conn p))
    (ho : (s.conn p).epollOption.has (if r.isIn then READ else WRITE) = true)
    (hv : (s.conn p).valid = true) (hm : s.mutex p = none) (hf : s.closingMutex = none) :
    ∃ t : Http.Stepped Http.Worker, httpRound f p r s =
        (t.1, .served (t.1.conn p).sent (t.1.conn p).valid t.2.2) ∧
      Http.Served r.worker p (s.setConn p (reported (s.conn p)))
        (Http.handled { reported (s.conn p) with start := s.now } (r.event p (s.conn p).id)
          (r.httpInput f (reported (s.conn p)))) t := by
  have hconn : (s.setConn p (reported (s.conn p))).conn p = reported (s.conn p) := by simp
  obtain ⟨t, ht, hs⟩ : ∃ t, Http.Worker.handle r.worker (r.httpInput f (reported (s.conn p))) 11
      (s.setConn p (reported (s.conn p))) ⟨.looping, [r.event p (s.conn p).id], 0⟩ = some t ∧
      Http.Served r.worker p (s.setConn p (reported (s.conn p))) (Http.handled
        { (s.setConn p (reported (s.conn p))).conn p with start := s.now }
        (r.event p (s.conn p).id) (r.httpInput f (reported (s.conn p)))) t := by
    refine Http.Worker.handle_served (n := 0) rfl ?_ ?_ ?_ hf
    · rw [hconn]
      exact hv
    · rw [hconn]
      nofun
    · rw [setConn_mutex]
      exact hm
  rw [hconn] at hs
  refine ⟨t, ?_, hs⟩
  unfold httpRound
  rw [raise_armed ha, if_pos ho]
  dsimp only
  rw [show s.setConn p { s.conn p with watch := .disabled } = s.setConn p (reported (s.conn p))
    from rfl, hconn, show (reported (s.conn p)).id = (s.conn p).id from rfl, ht]

theorem corRound_served (f : Request → Responce) {stage : Option Point}
    (ha : Armed (st.service.conn p))
    (ho : (st.service.conn p).epollOption.has (if r.isIn then READ else WRITE) = true)
    (hv : (st.service.conn p).valid = true) (hm : st.service.mutex p = none)
    (hf : st.service.closingMutex = none) (hq : Queued st) (hs : Stands st p stage) :
    ∃ k t, corRound f p r st =
        (t.1, .served (t.1.service.conn p).sent (t.1.service.conn p).valid t.2.2) ∧
      Served r.worker p (st.setConn p (reported (st.service.conn p))) k
        (handled { reported (st.service.conn p) with routine := some k } st.service.now
          (r.input f (reported (st.service.conn p))) stage) t := by
  have hconn := state_setConn st p (reported (st.service.conn p))
  have hstands : Stands (st.setConn p (reported (st.service.conn p))) p stage := by
    cases stage with
    | none =>
      show ((st.setConn p _).service.conn p).routine = none
      rw [hconn]
      exact hs
    | some k =>
      obtain ⟨r, hr, hroutine, hserve, hinner⟩ := hs
      refine ⟨r, ?_, hroutine, ?_, fun hk => ?_⟩ <;> rw [hconn]
      · exact hr
      · exact hserve
      · exact hinner hk
  obtain ⟨k, -, t, ht, hserved⟩ : ∃ k, Own (st.setConn p (reported (st.service.conn p))) p k ∧
      ∃ t, Worker.handle r.worker (r.input f (reported (st.service.conn p))) 15
        (st.setConn p (reported (st.service.conn p)))
        ⟨.looping, [r.event p (st.service.conn p).id], 0, 0, 0⟩ = some t ∧
      Served r.worker p (st.setConn p (reported (st.service.conn p))) k (handled
        { (st.setConn p (reported (st.service.conn p))).service.conn p with routine := some k }
        st.service.now (r.input f (reported (st.service.conn p))) stage) t := by
    refine Worker.handle_served (n := 0) rfl ?_ ?_ ?_ hf hq hstands
    · rw [hconn]
      exact hv
    · rw [hconn]
      nofun
    · exact (setConn_mutex ..).trans hm
  rw [hconn] at hserved
  refine ⟨k, t, ?_, hserved⟩
  unfold corRound
  rw [raise_armed ha, if_pos ho]
  dsimp only
  rw [show st.service.setConn p { st.service.conn p with watch := .disabled } =
    (st.setConn p (reported (st.service.conn p))).service from rfl, hconn,
    show (reported (st.service.conn p)).id = (st.service.conn p).id from rfl,
    show ({ st with service := (st.setConn p (reported (st.service.conn p))).service } : State) =
      st.setConn p (reported (st.service.conn p)) from rfl, ht]

/-- The listener is asked for an answer to the same request. -/
theorem same_reply (f : Request → Responce) {c d c' : HttpConnection} {stage stage' : Option Point}
    (h : Reads c d stage) (h' : Reads c c' stage')
    (hnone : (tryReadRequest c' r.reads).2 = none) :
    (r.httpInput f c).script.replies = [(r.input f d).reply] := by
  have hsame := tryRead_same h.alike h.valid h.read r.reads
  have hsame' := tryRead_same h'.alike h'.valid h'.read r.reads
  have hreq := hsame.req (hsame'.next.symm.trans hnone)
  show [f _] = [f _]
  rw [hreq]

/-- The same is told of a round, the workers come to an end, and the clients are still the
same unless an exception has left them. -/
structure SameRound (p : ℕ) (a : Service × Told) (b : State × Told) : Prop where
  told : b.2 = a.2
  ends : a.2 ≠ .stuck
  same : a.2.over = false → Same p a.1 b.1

theorem served_same {i k : ℕ} {t : Http.Stepped Http.Worker} {t' : Stepped}
    {a : HttpConnection × Bool} {o : Outcome} (ha : Http.Served i p s a t)
    (ho : Served i p st k o t') (hag : Agrees a o) :
    SameRound p (t.1, .served (t.1.conn p).sent (t.1.conn p).valid t.2.2)
      (t'.1, .served (t'.1.service.conn p).sent (t'.1.service.conn p).valid t'.2.2) := by
  cases hout : a.2
  · have hb := ha.stays hout
    have hb' := ho.stays (hag.out.trans hout)
    have hconn := hb.alters.conn
    have hconn' := hb'.runs.service.conn
    refine ⟨?_, by simp, fun _ => ⟨hb.alters.mutex, hb.free, hb'.runs.service.mutex, hb'.runs.free,
      hb'.runs.queued, o.stage, fun hv => ?_, ?_⟩⟩
    · rw [hconn, hconn', hb.stays, hb'.stays, hag.alike.sent, hag.alike.valid]
    · rw [hconn'] at hv
      exact hb'.stands hv
    · rw [hconn, hconn']
      exact hag.twins hout
  · obtain ⟨hhalt, halters, -⟩ := ha.leaves hout
    obtain ⟨hhalt', hruns⟩ := ho.leaves (hag.out.trans hout)
    refine ⟨?_, by simp, fun hover => ?_⟩
    · rw [halters.conn, hruns.service.conn, hhalt, hhalt', hag.alike.sent, hag.alike.valid]
    · exact absurd (hhalt.symm.trans hover) (by simp)

theorem idleOption_has : idleOption.has READ = true ∧ idleOption.has WRITE = false := by decide

theorem busyOption_has (k : Bool) : (busyOption k).has WRITE = true := by
  cases k <;> decide

/-- One round. -/
theorem round_same (f : Request → Responce) (h : Same p s st)
    (hp : r.isIn = true → (s.conn p).write = []) :
    SameRound p (httpRound f p r s) (corRound f p r st) := by
  obtain ⟨stage, hstands, htwins⟩ := h.twins
  have hunarmed : s.raise (r.event p (s.conn p).id) = none →
      st.service.raise (r.event p (st.service.conn p).id) = none →
      SameRound p (httpRound f p r s) (corRound f p r st) := by
    intro hs hst
    unfold httpRound corRound
    rw [hs, hst]
    exact ⟨rfl, by simp, fun _ => h⟩
  cases htwins with
  | reads hr hc hd =>
    have hv := hr.alike.valid.trans hr.valid
    have ho := hr.alike.epollOption.trans hr.option
    cases hin : r.isIn
    · refine hunarmed ?_ ?_
      · rw [raise_armed hc, hr.option, hin, if_neg (by simp [idleOption_has])]
      · rw [raise_armed hd, ho, hin, if_neg (by simp [idleOption_has])]
    · obtain ⟨t, ht, hserved⟩ := httpRound_served f (r := r) hc
        (by rw [hr.option, hin, if_pos rfl]; exact idleOption_has.1) hr.valid h.mutex h.free
      obtain ⟨k, t', ht', hserved'⟩ := corRound_served f (r := r) hd
        (by rw [ho, hin, if_pos rfl]; exact idleOption_has.1) hv h.mutex' h.free' h.queued
        (hstands hv)
      rw [ht, ht']
      refine served_same hserved hserved' ?_
      have hreported : Reads (reported (s.conn p)) (reported (st.service.conn p)) stage :=
        hr.alter ⟨rfl, rfl, rfl, rfl, rfl⟩ ⟨rfl, rfl, rfl, rfl, rfl⟩ rfl rfl
      have hstart : Reads (reported (s.conn p)) { reported (s.conn p) with start := s.now } stage :=
        ⟨⟨rfl, rfl, rfl, rfl, rfl⟩, hr.valid, rfl, hr.write, hr.option, hr.stage⟩
      have hreply := same_reply (r := r) f hreported hstart
      have halter : ∀ d', Alike (st.service.conn p) d' → d'.read = (st.service.conn p).read →
          Reads { reported (s.conn p) with start := s.now } d' stage := fun d' hd' hdr =>
        hr.alter ⟨rfl, rfl, rfl, rfl, rfl⟩ hd' rfl hdr
      obtain rfl | rfl := hr.stage
      · exact read_agrees (halter _ ⟨rfl, rfl, rfl, rfl, rfl⟩ rfl) hin rfl rfl hreply
      · exact read_agrees (halter _ ⟨rfl, rfl, rfl, rfl, rfl⟩ rfl) hin rfl rfl hreply
  | writes hw hc hd =>
    have hv := hw.alike.valid.trans hw.valid
    have ho := hw.alike.epollOption.trans hw.option
    have hin : r.isIn = false := by
      by_contra hin
      exact hw.write (hp (by simpa using hin))
    obtain ⟨t, ht, hserved⟩ := httpRound_served f (r := r) hc
      (by rw [hw.option, hin, if_neg (by simp)]; exact busyOption_has _) hw.valid h.mutex h.free
    obtain ⟨k, t', ht', hserved'⟩ := corRound_served f (r := r) hd
      (by rw [ho, hin, if_neg (by simp)]; exact busyOption_has _) hv h.mutex' h.free' h.queued
      (hstands hv)
    rw [ht, ht']
    refine served_same hserved hserved' ?_
    have hout : (r.event p (s.conn p).id).isOut = true := by simp [Round.event, hin]
    have halter : ∀ d', Alike (st.service.conn p) d' → d'.read = (st.service.conn p).read →
        Writes { reported (s.conn p) with start := s.now } d' stage := fun d' hd' hdr =>
      hw.alter ⟨rfl, rfl, rfl, rfl, rfl⟩ hd' rfl hdr
    obtain rfl | rfl := hw.stage
    · exact write_agrees (halter _ ⟨rfl, rfl, rfl, rfl, rfl⟩ rfl) hin hout rfl
    · exact write_agrees (halter _ ⟨rfl, rfl, rfl, rfl, rfl⟩ rfl) hin hout rfl
  | closed ha hv hc hd => exact hunarmed (raise_absent hc) (raise_absent hd)

/-- A client as the acceptor has just registered it. -/
structure Accepted (p : ℕ) (s : Service) : Prop where
  conn : ∃ id now, s.conn p =
    ({ HttpConnection.make id now with epollOption := READ + ET_ONESHOT }).arm
  mutex : s.mutex p = none
  free : s.closingMutex = none

theorem Accepted.same (h : Accepted p s) (h' : Accepted p st.service) (hq : Queued st) :
    Same p s st := by
  obtain ⟨id, now, hc⟩ := h.conn
  obtain ⟨id', now', hd⟩ := h'.conn
  refine ⟨h.mutex, h.free, h'.mutex, h'.free, hq, none, fun _ => ?_, ?_⟩
  · show (st.service.conn p).routine = none
    rw [hd]
    rfl
  · rw [hc, hd]
    exact .reads ⟨⟨rfl, rfl, rfl, rfl, rfl⟩, rfl, rfl, rfl, rfl, .inl rfl⟩ rfl rfl

theorem talk_same (f : Request → Responce) (rs : List Round) (h : Same p s st)
    (hp : Polite f p rs s) :
    talk (corRound f p) rs st = talk (httpRound f p) rs s ∧
      .stuck ∉ talk (httpRound f p) rs s := by
  induction rs generalizing s st with
  | nil => exact ⟨rfl, by simp [talk]⟩
  | cons r rs ih =>
    have hround := round_same f h hp.1
    unfold talk
    rw [hround.told]
    cases hover : (httpRound f p r s).2.over
    · obtain ⟨heq, hends⟩ := ih (hround.same hover) hp.2
      simp only [Bool.false_eq_true, if_false, List.mem_cons, not_or]
      exact ⟨by rw [heq], hround.ends.symm, hends⟩
    · simp only [if_true, List.mem_singleton, true_and]
      exact hround.ends.symm

/-- As long as the client sends nothing while a response is pending, the workers of the two
services write the same bytes to it in every round and close it in the same round. -/
theorem workers_agree (f : Request → Responce) (rs : List Round) (h : Accepted p s)
    (h' : Accepted p st.service) (hq : Queued st) (hp : Polite f p rs s) :
    talk (corRound f p) rs st = talk (httpRound f p) rs s ∧
      .stuck ∉ talk (httpRound f p) rs s :=
  talk_same f rs (h.same h' hq) hp

end Rounds

/-- The client has sent `bytes`, and the socket would take a response. -/
def chunk (bytes : {b : List UInt8 // b.length ≤ BUF_SIZE}) : Round :=
  ⟨0, true, [.data bytes], [.wrote 1000], .finish⟩

def writable (n : ℕ) : Round := ⟨1, false, [], [.wrote n], .finish⟩

def okListener : Request → Responce := fun _ => ⟨lit "1.1", 200, lit "OK", [], []⟩

/-- Both services with one client, which the acceptor has just registered. -/
theorem accepted_first :
    (∃ σ, (Http.System.start 20 60).run (Http.accepts 8) = some σ ∧ Accepted 0 σ.service) ∧
    ∃ σ, (System.start 20 60).run (accepts 8) = some σ ∧ Accepted 0 σ.state.service ∧
      Queued σ.state :=
  ⟨⟨_, rfl, ⟨0, 0, rfl⟩, rfl, rfl⟩, _, rfl, ⟨⟨0, 0, rfl⟩, rfl, rfl⟩, nofun⟩

/-- A request in two pieces on a kept connection, its response in two pieces, and a request
on which the connection is closed. -/
def exchange : List Round :=
  [chunk (oneRead (lit "GET / H")),
    chunk (oneRead (lit "TTP/1.1\r\nConnection: Keep-Alive\r\n\r\n")), writable 9, writable 1000,
    chunk (oneRead (lit "GET / HTTP/1.1\r\n\r\n")), writable 1000]

theorem workers_agree_exchange : ∃ (s : Service) (st : State),
    talk (corRound okListener 0) exchange st = talk (httpRound okListener 0) exchange s ∧
      (talk (httpRound okListener 0) exchange s).getLast? = some
        (.served (lit "HTTP/1.1 200 OK\r\n\r\nHTTP/1.1 200 OK\r\n\r\n") false false) := by
  obtain ⟨⟨σ, hσ, hs⟩, τ, hτ, hst, hq⟩ := accepted_first
  have hrun : ((Http.System.start 20 60).run (Http.accepts 8)).map (fun σ =>
      (decide (Polite okListener 0 exchange σ.service),
        (talk (httpRound okListener 0) exchange σ.service).getLast?)) =
      some (true,
        some (.served (lit "HTTP/1.1 200 OK\r\n\r\nHTTP/1.1 200 OK\r\n\r\n") false false)) := by
    decide +kernel
  rw [hσ] at hrun
  obtain ⟨hpolite, hlast⟩ := Prod.mk.inj (Option.some.inj hrun)
  exact ⟨σ.service, τ.state, (workers_agree okListener exchange hs hst hq
    (of_decide_eq_true hpolite)).1, hlast⟩

/-- Two pieces of a request. -/
def pieces : Bytes × Bytes :=
  (lit "GET / HTTP/1.1\r\nConnection: Keep-Alive\r\n\r\n", lit "abc")

def impatient : List Round := [chunk (oneRead pieces.1), chunk (oneRead pieces.2)]

/-- The client sends one incorrect request, whose first piece alone is a request:
`HttpWorker` closes it on the second piece, `CoroutineWorker` first writes the response. -/
theorem workers_differ : (∃ what, Request.parse (pieces.1 ++ pieces.2) =
      .error (.incorrectData what)) ∧
    ∃ (s : Service) (st : State), Accepted 0 s ∧ Accepted 0 st.service ∧ Queued st ∧
      talk (httpRound okListener 0) impatient s = [.served [] true false, .served [] false false] ∧
      talk (corRound okListener 0) impatient st =
        [.served [] true false, .served (lit "HTTP/1.1 200 OK\r\n\r\n") true false] := by
  refine ⟨⟨_, rfl⟩, ?_⟩
  obtain ⟨⟨σ, hσ, hs⟩, τ, hτ, hst, hq⟩ := accepted_first
  have hhttp : ((Http.System.start 20 60).run (Http.accepts 8)).map (fun σ =>
      talk (httpRound okListener 0) impatient σ.service) =
      some [.served [] true false, .served [] false false] := by decide +kernel
  have hcor : ((System.start 20 60).run (accepts 8)).map (fun σ =>
      talk (corRound okListener 0) impatient σ.state) =
      some [.served [] true false, .served (lit "HTTP/1.1 200 OK\r\n\r\n") true false] := by
    decide +kernel
  rw [hσ] at hhttp
  rw [hτ] at hcor
  exact ⟨σ.service, τ.state, hs, hst, hq, Option.some.inj hhttp, Option.some.inj hcor⟩

end Sphere.Cor
