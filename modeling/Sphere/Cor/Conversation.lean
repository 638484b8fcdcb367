import Sphere.Lib.Conversation
import Sphere.Cor.Agreement
import Sphere.Http.Boundary

/-! The conversation that a client has with either of the two services: what the socket has
taken and when it is closed follow from the requests, the listener and what the socket brings
and takes, as if the server answered one request after another. -/

namespace Sphere.Cor

open Lib Net Http Lib.Conversation

def judged : Parse Request → Verdict Request
  | .ok q => .complete q
  | .error (.expectingData _) => .incomplete
  | .error _ => .refused

def httpRules : Rules UInt8 Request Responce where
  judge b := judged (Request.parse b)
  text := Responce.str
  keeps q := isKeepAlive q.headers

/-- What the workers make of an exception of the socket. -/
def failure : TcpError → Conversation.Ending
  | .timeOut _ => .blocks
  | .descriptor _ => .closes
  | .error _ => .throws

def readEnding : Http.Ending → Conversation.Ending
  | .eof => .closes
  | .fail errno => failure (handleError errno)

/-- How many bytes a batch of writes takes, if there are that many, and how it ends if there
are more. -/
def room : List WriteResult → ℕ × Conversation.Ending
  | [] => (0, .blocks)
  | .wrote n :: writes => (n + (room writes).1, (room writes).2)
  | .fail errno :: _ => (0, failure (handleError errno))

def Round.socketInput (r : Round) : Conversation.Input UInt8 :=
  if r.isIn then .bring (received r.reads) (readEnding (ending r.reads))
  else .take (room r.writes).1 (room r.writes).2

/-- An exception leaves the worker. -/
def Round.stops (r : Round) (t : Talk UInt8) : Bool :=
  if r.isIn then readEnding (ending r.reads) = .throws
  else (room r.writes).2 = .throws ∧ t.phase.left ≠ []

def Round.serves (r : Round) : Phase UInt8 → Bool
  | .hearing _ => r.isIn
  | .telling _ _ => !r.isIn
  | .ended _ => false

/-- A round as the server that answers one request after another has it. -/
def converse (f : Request → Responce) (r : Round) (t : Talk UInt8) : Talk UInt8 × Told :=
  if r.serves t.phase then
    (t.step httpRules f r.socketInput, .served (t.step httpRules f r.socketInput).sent
      (t.step httpRules f r.socketInput).phase.isOpen (r.stops (t.step httpRules f r.socketInput)))
  else (t, .unarmed)

/-- Where the conversation stands after the rounds. -/
def spoken (f : Request → Responce) : List Round → Talk UInt8 → Talk UInt8
  | [], t => t
  | r :: rs, t =>
    if (converse f r t).2.over then (converse f r t).1 else spoken f rs (converse f r t).1

/-- The client is polite: it sends nothing while it waits for bytes of a response. And what
has been read of a request is no text on which `Request.parse` steps out of its view: a
request line and a lone CR, or header lines and one more character. -/
def Phase.Admits (r : Round) : Phase UInt8 → Prop
  | .hearing heard => r.isIn = true → Request.parse (heard ++ received r.reads) ≠ .error .undefined
  | .telling left _ | .ended left => r.isIn = true → left = []

/-- The phase admits each round of the conversation. -/
def Courteous (f : Request → Responce) : List Round → Talk UInt8 → Prop
  | [], _ => True
  | r :: rs, t => Phase.Admits r t.phase ∧
    ((converse f r t).2.over = false → Courteous f rs (converse f r t).1)

instance (r : Round) (phase : Phase UInt8) : Decidable (Phase.Admits r phase) := by
  cases phase <;> unfold Phase.Admits <;> infer_instance

instance decidableCourteous (f : Request → Responce) :
    ∀ (rs : List Round) (t : Talk UInt8), Decidable (Courteous f rs t)
  | [], _ => .isTrue trivial
  | _ :: rs, _ =>
    have := decidableCourteous f rs
    inferInstanceAs (Decidable (_ ∧ _))

/-- What the connection has to do with the phase, but for what epoll is told. -/
def InPhase (c : HttpConnection) : Phase UInt8 → Prop
  | .hearing heard => c.read = heard ∧ c.epollOption = idleOption
  | .telling left keeps => left ≠ [] ∧ c.keepAlive = keeps ∧ (keeps = true → c.read = []) ∧
      c.epollOption = busyOption keeps
  | .ended _ => True

structure Speaks (c : HttpConnection) (t : Talk UInt8) : Prop where
  sent : c.sent = t.sent
  write : c.write = t.phase.left
  valid : c.valid = t.phase.isOpen
  phase : InPhase c t.phase

/-- Epoll watches an open connection for its option. -/
def Watched (c : HttpConnection) : Prop := if c.valid then Armed c else c.watch = .absent

/-- What a worker has made of an event. -/
structure Reflects (a : HttpConnection × Bool) (t : Talk UInt8) (stops : Bool) : Prop where
  out : a.2 = stops
  sent : a.1.sent = t.sent
  valid : a.1.valid = t.phase.isOpen
  speaks : stops = false → Speaks a.1 t ∧ Watched a.1

section Connections

variable {c : HttpConnection} {f : Request → Responce} {r : Round} {e : Event} {x : Http.Input}
  {t : Talk UInt8}

theorem Speaks.reflects (h : Speaks c t) (hw : Watched c) : Reflects (c, false) t false :=
  ⟨rfl, h.sent, h.valid, fun _ => ⟨h, hw⟩⟩

theorem close_follows {left received sent : List UInt8} (hs : c.sent = sent) (hw : c.write = left) :
    Reflects (c.close, false) ⟨received, sent, .ended left⟩ false :=
  Speaks.reflects ⟨hs, hw, rfl, trivial⟩ rfl

/-- Behind `work` an open connection that waits for a request is told of as such. -/
theorem idle_follows {heard received sent : List UInt8} {opt : OPTION} (hs : c.sent = sent)
    (hw : c.write = []) (hv : c.valid = true) (hr : c.read = heard)
    (ho : c.epollOption = idleOption)
    (hopt : idleOption + opt + ET_ONESHOT = idleOption) :
    Reflects ((c.subscribe opt).arm, false) ⟨received, sent, .hearing heard⟩ false := by
  refine Speaks.reflects ⟨hs, hw, hv, hr, ?_⟩ ?_
  · show c.epollOption + opt + ET_ONESHOT = idleOption
    rw [ho, hopt]
  · unfold Watched
    rw [if_pos (show (c.subscribe opt).arm.valid = true from hv)]
    rfl

theorem finish_idle {heard received sent : List UInt8} (hs : c.sent = sent)
    (hw : c.write = []) (hv : c.valid = true) (hr : c.read = heard)
    (ho : c.epollOption = idleOption) :
    Reflects (goOn c .finish) ⟨received, sent, .hearing heard⟩ false := by
  have hne : c.epollOption ≠ ET_ONESHOT := by
    rw [ho]
    decide
  simp only [goOn, if_neg hne]
  exact idle_follows hs hw hv hr ho (by decide)

theorem finish_busy {left received sent : List UInt8} {keeps : Bool} (hs : c.sent = sent)
    (hw : c.write = left) (hleft : left ≠ []) (hv : c.valid = true) (hk : c.keepAlive = keeps)
    (hr : keeps = true → c.read = []) (ho : c.epollOption = busyOption keeps) :
    Reflects (goOn c .finish) ⟨received, sent, .telling left keeps⟩ false := by
  have hne : c.epollOption ≠ ET_ONESHOT := by
    rw [ho]
    exact busyOption_ne keeps
  simp only [goOn, if_neg hne]
  refine Speaks.reflects ⟨hs, hw, hv, hleft, hk, hr, ?_⟩ ?_
  · show c.epollOption + UNKNOWN + ET_ONESHOT = busyOption keeps
    rw [ho, (busyOption_add keeps).1]
  · unfold Watched
    rw [if_pos (show (c.subscribe UNKNOWN).arm.valid = true from hv)]
    rfl

/-- What a batch of reads comes to, and what the server makes of what it has heard. -/
inductive Hears (f : Request → Responce) (c c' : HttpConnection) (text : Bytes) :
    Option Next → Phase UInt8 → Conversation.Ending → Prop
  | close {e : Conversation.Ending} : e ≠ .throws → c' = c →
      Hears f c c' text (some (.close .leave)) (.ended []) e
  | rearm : c' = c → Hears f c c' text (some .rearm) (.hearing text) .blocks
  | thrown (err : TcpError) : c' = c →
      Hears f c c' text (some (.thrown err)) (.hearing text) .throws
  | request (q : Request) : c' = { c with keepAlive := isKeepAlive q.headers, req := q } →
      Hears f c c' text none (.telling (f q).str (isKeepAlive q.headers)) .blocks

theorem parse_hears (hdef : Request.parse c.read ≠ .error .undefined) :
    Hears f c (parseRequest c).1 c.read (parseRequest c).2
      (Talk.judged httpRules f c.read (httpRules.judge c.read)) .blocks := by
  have hdiv := Request.parse_ne_diverges c.read
  simp only [httpRules]
  unfold parseRequest
  cases hp : Request.parse c.read with
  | ok q => exact .request q rfl
  | error stop =>
    cases stop with
    | expectingData what => exact .rearm rfl
    | incorrectData what => exact .close (by simp) rfl
    | undefined => exact absurd hp hdef
    | diverges => exact absurd hp hdiv

theorem read_hears (hv : c.valid = true) (reads : List ReadResult)
    (hdef : Request.parse (c.read ++ received reads) ≠ .error .undefined) :
    Hears f (c.receive (received reads)) (tryReadRequest c reads).1 (c.read ++ received reads)
      (tryReadRequest c reads).2
      (Talk.heardMore httpRules f (c.read ++ received reads) (readEnding (ending reads)))
      (readEnding (ending reads)) := by
  rw [tryReadRequest_eq reads hv]
  cases ending reads with
  | eof => exact .close (by simp [readEnding]) rfl
  | fail errno =>
    simp only [Http.Ending.next, readEnding]
    cases handleError errno with
    | timeOut errno => exact parse_hears (c := c.receive (received reads)) hdef
    | descriptor errno => exact .close (by simp [failure]) rfl
    | error errno => exact .thrown (.error errno) rfl

/-- An event is served while the connection waits for a request. -/
theorem hear_follows {heard : List UInt8} (ht : t.phase = .hearing heard) (h : Speaks c t)
    (he : e.isIn = true) (hin : r.isIn = true) (hreads : x.script.reads = r.reads)
    (hreply : (tryReadRequest c r.reads).2 = none →
      x.script.replies = [f (tryReadRequest c r.reads).1.req])
    (hdef : Request.parse (heard ++ received r.reads) ≠ .error .undefined) :
    Reflects (Http.handled c e x) (t.step httpRules f r.socketInput)
      (r.stops (t.step httpRules f r.socketInput)) := by
  obtain ⟨hsent, hwrite, hvalid, hphase⟩ := h
  rw [ht] at hwrite hvalid hphase
  obtain ⟨rfl, hoption⟩ := hphase
  have hstep : t.step httpRules f r.socketInput = ⟨t.received ++ received r.reads, t.sent,
      Talk.heardMore httpRules f (c.read ++ received r.reads) (readEnding (ending r.reads))⟩ := by
    simp only [Round.socketInput, hin, if_true, Talk.step, ht]
  have hstops : r.stops (t.step httpRules f r.socketInput) =
      decide (readEnding (ending r.reads) = .throws) := by
    simp only [Round.stops, hin, if_true]
  rw [hstops, hstep]
  have hhears := read_hears (f := f) hvalid r.reads hdef
  unfold Http.handled serve
  rw [if_pos he, hreads]
  generalize tryReadRequest c r.reads = read at *
  generalize Talk.heardMore httpRules f (c.read ++ received r.reads) _ = phase at *
  generalize readEnding (ending r.reads) = ending at *
  obtain ⟨c', next⟩ := read
  cases hhears with
  | close hne hc =>
    obtain rfl := hc
    simp only [hne, decide_false]
    exact close_follows hsent hwrite
  | rearm hc =>
    obtain rfl := hc
    exact idle_follows hsent hwrite hvalid rfl hoption (by decide)
  | thrown err hc =>
    obtain rfl := hc
    exact ⟨rfl, hsent, hvalid, fun hstops => absurd hstops (by simp)⟩
  | request q hc =>
    obtain rfl := hc
    dsimp only
    rw [hreply rfl]
    have hanswered := onRequest_answered { c.receive (received r.reads) with
      keepAlive := isKeepAlive q.headers, req := q } (f q)
    exact finish_busy (hanswered.sent.trans hsent) hanswered.write (str_ne_nil _)
      (hanswered.valid.trans hvalid) hanswered.keepAlive hanswered.read (hanswered.option hoption)

/-- How a batch of writes ends that has not emptied the buffer. -/
def WriteEnds : Conversation.Ending → Next ⊕ Bool → Prop
  | .blocks, next => next = .inr false
  | .closes, next => next = .inl (.close .finish)
  | .throws, next => ∃ err, next = .inl (.thrown err)

theorem writeEnds_failure (err : TcpError) : WriteEnds (failure err) (writeFailed err) := by
  cases err with
  | error errno => exact ⟨.error errno, rfl⟩
  | _ => exact rfl

/-- A batch of writes takes its bytes, as if it were one. -/
theorem tryWrite_room (hv : c.valid = true) (hw : c.write ≠ []) (writes : List WriteResult) :
    (tryWriteResponce c writes).1 = taken c (room writes).1 ∧
      (c.write.drop (room writes).1 = [] → (tryWriteResponce c writes).2 = .inr true) ∧
      (c.write.drop (room writes).1 ≠ [] →
        WriteEnds (room writes).2 (tryWriteResponce c writes).2) := by
  induction writes generalizing c with
  | nil =>
    rw [tryWrite_nil hv]
    exact ⟨by simp [room, taken], fun h => absurd h hw, fun _ => rfl⟩
  | cons w writes ih =>
    cases w with
    | fail errno =>
      rw [tryWrite_fail hv]
      exact ⟨by simp [room, taken], fun h => absurd h hw, fun _ => writeEnds_failure _⟩
    | wrote n =>
      have hadd : ∀ m, taken c (n + m) = taken (taken c n) m := by
        intro m
        simp only [taken, List.drop_drop, List.append_assoc, List.take_add]
      have hdrop : ∀ m, c.write.drop (n + m) = (taken c n).write.drop m := by
        intro m
        rw [← List.drop_drop]
        rfl
      rw [tryWrite_wrote hv]
      simp only [room, hadd, hdrop]
      split_ifs with hempty
      · have hnone : taken (taken c n) (room writes).1 = taken c n := by
          simp only [taken] at hempty ⊢
          simp [hempty]
        exact ⟨hnone.symm, fun _ => rfl, fun h => absurd (by rw [hempty, List.drop_nil]) h⟩
      · exact ih hv hempty

/-- An event is served while there is something to write. -/
theorem tell_follows {left : List UInt8} {keeps : Bool} (ht : t.phase = .telling left keeps)
    (h : Speaks c t) (hin : r.isIn = false) (he : e.isIn = false) (hout : e.isOut = true)
    (hwrites : x.script.writes = r.writes) :
    Reflects (Http.handled c e x) (t.step httpRules f r.socketInput)
      (r.stops (t.step httpRules f r.socketInput)) := by
  obtain ⟨hsent, hwrite, hvalid, hphase⟩ := h
  rw [ht] at hwrite hvalid hphase
  obtain ⟨hleft, hkeeps, hread, hoption⟩ := hphase
  obtain rfl : c.write = left := hwrite
  obtain ⟨htaken, hempty, hends⟩ := tryWrite_room hvalid hleft r.writes
  have hstep : t.step httpRules f r.socketInput = ⟨t.received,
      t.sent ++ c.write.take (room r.writes).1,
      Talk.toldMore (c.write.drop (room r.writes).1) keeps (room r.writes).2⟩ := by
    simp only [Round.socketInput, hin, Bool.false_eq_true, if_false, Talk.step, ht]
  have hsent' : (taken c (room r.writes).1).sent = t.sent ++ c.write.take (room r.writes).1 := by
    rw [← hsent]
    rfl
  have hstops : r.stops (t.step httpRules f r.socketInput) = decide ((room r.writes).2 = .throws ∧
      (Talk.toldMore (c.write.drop (room r.writes).1) keeps (room r.writes).2).left ≠ []) := by
    rw [hstep]
    simp only [Round.stops, hin, Bool.false_eq_true, if_false]
  rw [hstops, hstep]
  unfold Http.handled serve
  rw [he, hout, hwrites]
  generalize tryWriteResponce c r.writes = written at *
  obtain ⟨c', next⟩ := written
  obtain rfl : c' = taken c (room r.writes).1 := htaken
  unfold Talk.toldMore
  by_cases hdrop : c.write.drop (room r.writes).1 = []
  · obtain rfl : next = .inr true := hempty hdrop
    have hunsub : ((taken c (room r.writes).1).unsubscribe WRITE).epollOption =
        if keeps then idleOption else ET_ONESHOT := by
      show c.epollOption - WRITE + ET_ONESHOT = _
      rw [hoption]
      cases keeps <;> decide
    rw [if_pos hdrop]
    cases keeps with
    | true =>
      simp only [if_true, Phase.left, ne_eq, not_true, and_false, decide_false]
      exact finish_idle (c := (taken c (room r.writes).1).unsubscribe WRITE) hsent' hdrop hvalid
        (hread rfl) hunsub
    | false =>
      simp only [Bool.false_eq_true, if_false, if_true, Phase.left, ne_eq, not_true, and_false,
        decide_false, reduceCtorEq, goOn, hunsub]
      exact close_follows hsent' hdrop
  · have hends := hends hdrop
    rw [if_neg hdrop]
    cases hend : (room r.writes).2 with
    | blocks =>
      rw [hend] at hends
      obtain rfl : next = .inr false := hends
      simp only [Bool.false_eq_true, if_false, if_true, reduceCtorEq, false_and, decide_false]
      exact finish_busy hsent' rfl hdrop hvalid hkeeps hread hoption
    | closes =>
      rw [hend] at hends
      obtain rfl : next = .inl (.close .finish) := hends
      simp only [Bool.false_eq_true, if_false, if_true, reduceCtorEq, false_and, decide_false]
      exact close_follows hsent' rfl
    | throws =>
      rw [hend] at hends
      obtain ⟨err, rfl⟩ : ∃ err, next = .inl (.thrown err) := hends
      simp only [Bool.false_eq_true, if_false, if_true, reduceCtorEq, Phase.left, ne_eq, hdrop,
        not_false_eq_true, and_self, decide_true]
      exact ⟨rfl, hsent', hvalid, fun hstops => absurd hstops (by simp)⟩

end Connections

section Rounds

variable {p : ℕ} {s : Service} {st : State} {f : Request → Responce} {r : Round} {t : Talk UInt8}

/-- Between two events of the client. -/
structure Between (p : ℕ) (s : Service) (t : Talk UInt8) : Prop where
  mutex : s.mutex p = none
  free : s.closingMutex = none
  speaks : Speaks (s.conn p) t
  watched : Watched (s.conn p)

/-- A round of `HttpWorker` and of the server that answers one request after another. -/
structure SameTold (p : ℕ) (a : Service × Told) (b : Talk UInt8 × Told) : Prop where
  told : a.2 = b.2
  between : b.2.over = false → Between p a.1 b.1

/-- The connection as the worker serves it. -/
def inHand (s : Service) (p : ℕ) : HttpConnection := { reported (s.conn p) with start := s.now }

theorem inHand_speaks (h : Speaks (s.conn p) t) : Speaks (inHand s p) t := by
  obtain ⟨hsent, hwrite, hvalid, hphase⟩ := h
  refine ⟨hsent, hwrite, hvalid, ?_⟩
  cases ht : t.phase <;> rw [ht] at hphase <;> exact hphase

/-- The worker comes back from the event. -/
theorem served_converses (h : Between p s t) (hopen : t.phase.isOpen = true)
    (hserves : r.serves t.phase = true)
    (ho : (s.conn p).epollOption.has (if r.isIn then READ else WRITE) = true)
    (hreflects : Reflects
      (Http.handled (inHand s p) (r.event p (s.conn p).id) (r.httpInput f (reported (s.conn p))))
      (t.step httpRules f r.socketInput) (r.stops (t.step httpRules f r.socketInput))) :
    SameTold p (httpRound f p r s) (converse f r t) := by
  have hvalid : (s.conn p).valid = true := h.speaks.valid.trans hopen
  have harmed : Armed (s.conn p) := by
    have hw := h.watched
    unfold Watched at hw
    rwa [if_pos hvalid] at hw
  obtain ⟨w, hw, hserved⟩ := httpRound_served f (r := r) harmed ho hvalid h.mutex h.free
  unfold converse
  rw [hw, if_pos hserves]
  cases hstops : r.stops (t.step httpRules f r.socketInput) with
  | false =>
    rw [hstops] at hreflects
    have hback := hserved.stays hreflects.out
    obtain ⟨hspeaks, hwatched⟩ := hreflects.speaks rfl
    refine ⟨?_, fun _ => ⟨hback.alters.mutex, hback.free, ?_, ?_⟩⟩
    · rw [hback.stays, hback.alters.conn]
      exact congrArg₂ (Told.served · · false) hreflects.sent hreflects.valid
    · rw [hback.alters.conn]
      exact hspeaks
    · rw [hback.alters.conn]
      exact hwatched
  | true =>
    rw [hstops] at hreflects
    obtain ⟨hhalts, halters, -⟩ := hserved.leaves hreflects.out
    refine ⟨?_, fun hover => absurd hover (by simp [Told.over])⟩
    rw [hhalts, halters.conn]
    exact congrArg₂ (Told.served · · true) hreflects.sent hreflects.valid

/-- Epoll has no such event of the client. -/
theorem unarmed_converses (h : Between p s t) (hserves : r.serves t.phase = false)
    (hraise : s.raise (r.event p (s.conn p).id) = none) :
    SameTold p (httpRound f p r s) (converse f r t) := by
  unfold httpRound converse
  rw [hraise, if_neg (by simp [hserves])]
  exact ⟨rfl, fun _ => h⟩

theorem round_converses (h : Between p s t) (hadmits : Phase.Admits r t.phase) :
    SameTold p (httpRound f p r s) (converse f r t) := by
  have hwatched := h.watched
  unfold Watched at hwatched
  have hphase := h.speaks.phase
  have hvalid := h.speaks.valid
  have hspeaks := inHand_speaks h.speaks
  cases ht : t.phase with
  | hearing heard =>
    rw [ht] at hphase hvalid hadmits
    rw [if_pos (show (s.conn p).valid = true from hvalid)] at hwatched
    obtain ⟨hread, hoption⟩ := hphase
    cases hin : r.isIn with
    | false =>
      refine unarmed_converses h (by rw [ht]; exact hin) ?_
      rw [raise_armed hwatched, hoption, hin, if_neg (by simp [idleOption_has])]
    | true =>
      have hsame : SameRead (tryReadRequest (inHand s p) r.reads)
          (tryReadRequest (reported (s.conn p)) r.reads) :=
        tryRead_same (c := inHand s p) (d := reported (s.conn p)) ⟨rfl, rfl, rfl, rfl, rfl⟩ hvalid
          rfl r.reads
      exact served_converses h (by rw [ht]; rfl) (by rw [ht]; exact hin)
        (by rw [hoption, hin]; exact idleOption_has.1)
        (hear_follows ht hspeaks hin hin rfl
          (fun hnone => congrArg (fun req => [f req]) (hsame.req hnone)) (hadmits hin))
  | telling left keeps =>
    rw [ht] at hphase hvalid hadmits
    obtain ⟨hleft, -, -, hoption⟩ := hphase
    have hin : r.isIn = false := by
      by_contra hin
      exact hleft (hadmits (by simpa using hin))
    exact served_converses h (by rw [ht]; rfl) (by rw [ht]; simp [Round.serves, hin])
      (by rw [hoption, hin]; exact busyOption_has keeps)
      (tell_follows ht hspeaks hin hin (by simp [Round.event, hin]) rfl)
  | ended left =>
    rw [ht] at hvalid
    rw [if_neg (by rw [hvalid]; simp [Phase.isOpen])] at hwatched
    exact unarmed_converses h (by rw [ht]; rfl) (raise_absent hwatched)

/-- Whenever the client sends nothing, both services are where the other server is. -/
theorem Between.polite (h : Between p s t) (hadmits : Phase.Admits r t.phase)
    (hin : r.isIn = true) : (s.conn p).write = [] := by
  rw [h.speaks.write]
  cases ht : t.phase with
  | hearing heard => rfl
  | _ =>
    rw [ht] at hadmits
    exact hadmits hin

theorem talk_converses (f : Request → Responce) (rs : List Round) (h : Same p s st)
    (hb : Between p s t) (hc : Courteous f rs t) :
    talk (httpRound f p) rs s = talk (converse f) rs t ∧
      talk (corRound f p) rs st = talk (converse f) rs t := by
  induction rs generalizing s st t with
  | nil => exact ⟨rfl, rfl⟩
  | cons r rs ih =>
    have hround := round_converses hb hc.1 (f := f)
    have hsame := round_same f h (hb.polite hc.1)
    unfold talk
    rw [hsame.told, hround.told]
    cases hover : (converse f r t).2.over with
    | true => exact ⟨rfl, rfl⟩
    | false =>
      obtain ⟨hhttp, hcor⟩ := ih (hsame.same ((congrArg Told.over hround.told).trans hover))
        (hround.between hover) (hc.2 hover)
      simp only [Bool.false_eq_true, if_false, hhttp, hcor, and_self]

theorem Accepted.between (h : Accepted p s) : Between p s .start := by
  obtain ⟨id, now, hc⟩ := h.conn
  refine ⟨h.mutex, h.free, ?_, ?_⟩ <;> rw [hc]
  · exact ⟨rfl, rfl, rfl, rfl, rfl⟩
  · exact rfl

/-- The rounds, as what was heard and answered. -/
theorem spoken_accounts (f : Request → Responce) (rs : List Round)
    {exchanges : List (Bytes × Request)} {rest : Bytes}
    (h : Talk.Accounts httpRules f t exchanges rest) : ∃ exchanges' rest',
      Talk.Accounts httpRules f (spoken f rs t) exchanges' rest' := by
  induction rs generalizing t exchanges rest with
  | nil => exact ⟨exchanges, rest, h⟩
  | cons r rs ih =>
    obtain ⟨exchanges', rest', -, h'⟩ : ∃ exchanges' rest', exchanges <+: exchanges' ∧
        Talk.Accounts httpRules f (converse f r t).1 exchanges' rest' := by
      unfold converse
      split_ifs
      · exact h.step r.socketInput
      · exact ⟨exchanges, rest, List.prefix_rfl, h⟩
    unfold spoken
    split_ifs
    · exact ⟨exchanges', rest', h'⟩
    · exact ih h'

/-- What the socket has taken by the last round that was served. -/
theorem spoken_sent (f : Request → Responce) (rs : List Round) {sent : Bytes} {valid halted : Bool}
    (h : (talk (converse f) rs t).getLast? = some (.served sent valid halted)) :
    (spoken f rs t).sent = sent := by
  induction rs generalizing t with
  | nil => cases h
  | cons r rs ih =>
    have hone :
        (converse f r t).2 = .served sent valid halted → (converse f r t).1.sent = sent := by
      unfold converse
      split_ifs with hserves
      · exact fun h => (Told.served.inj h).1
      · exact fun h => (by cases h)
    unfold talk at h
    unfold spoken
    cases hover : (converse f r t).2.over with
    | true =>
      rw [hover] at h
      simp only [if_true, List.getLast?_singleton, Option.some.injEq] at h ⊢
      exact hone h
    | false =>
      rw [hover] at h
      simp only [Bool.false_eq_true, if_false] at h ⊢
      cases rs with
      | nil =>
        simp only [talk, List.getLast?_singleton, Option.some.injEq] at h
        exact hone h
      | cons r' rs =>
        rw [List.getLast?_cons_of_ne_nil (by simp [talk])] at h
        exact ih h

/-- As long as the client sends nothing while it waits for bytes of a response, and no read
ends where the parser steps out of its view, both services are to it the server that answers
one request after another: in every round the socket has taken the same, is closed alike, and
the worker stops alike. What they have heard then are the
texts of requests, one behind the other, and what the sockets have taken is the listener's
answers to these in order, but for what is left of the last one; only the last request may be
one that does not keep the connection. -/
theorem conversations_served (f : Request → Responce) (rs : List Round) (h : Accepted p s)
    (h' : Accepted p st.service) (hq : Queued st) (hc : Courteous f rs .start) :
    talk (httpRound f p) rs s = talk (converse f) rs .start ∧
      talk (corRound f p) rs st = talk (converse f) rs .start ∧
      (∀ sent valid halted, (talk (converse f) rs .start).getLast? =
        some (.served sent valid halted) → (spoken f rs .start).sent = sent) ∧
      ∃ exchanges rest, Talk.Accounts httpRules f (spoken f rs .start) exchanges rest :=
  ⟨(talk_converses f rs (h.same h' hq) h.between hc).1,
    (talk_converses f rs (h.same h' hq) h.between hc).2, fun _ _ _ => spoken_sent f rs,
    spoken_accounts f rs .start⟩

theorem talk_append (f : Request → Responce) (rs : List Round) (r : Round)
    (h : ∀ told ∈ talk (converse f) rs t, told.over = false) :
    talk (converse f) (rs ++ [r]) t =
      talk (converse f) rs t ++ [(converse f r (spoken f rs t)).2] := by
  induction rs generalizing t with
  | nil => cases hover : (converse f r t).2.over <;> simp [talk, spoken, hover]
  | cons r' rs ih =>
    have hover : (converse f r' t).2.over = false := h _ (by simp [talk])
    unfold talk at h
    simp only [List.cons_append, talk, spoken, hover, Bool.false_eq_true, if_false] at h ⊢
    rw [ih fun told htold => h told (List.mem_cons_of_mem _ htold)]

theorem Courteous.snoc {f : Request → Responce} {rs : List Round} {r : Round}
    (hc : Courteous f rs t) (hr : Phase.Admits r (spoken f rs t).phase)
    (h : ∀ told ∈ talk (converse f) rs t, told.over = false) : Courteous f (rs ++ [r]) t := by
  induction rs generalizing t with
  | nil => exact ⟨hr, fun _ => trivial⟩
  | cons r' rs ih =>
    have hover : (converse f r' t).2.over = false := h _ (by simp [talk])
    unfold talk at h
    simp only [spoken, hover, Bool.false_eq_true, if_false] at h hr
    exact ⟨hc.1, fun _ =>
      ih (hc.2 hover) hr fun told htold => h told (List.mem_cons_of_mem _ htold)⟩

/-- When a client that has been courteous so far has sent more than one request by the time
it is read from, both services close it, and write nothing. -/
theorem pipelined_refused (f : Request → Responce) (rs : List Round) (h : Accepted p s)
    (h' : Accepted p st.service) (hq : Queued st) (hc : Courteous f rs .start)
    (hstill : ∀ told ∈ talk (converse f) rs .start, told.over = false) {heard text more : Bytes}
    (hphase : (spoken f rs .start).phase = .hearing heard) (hin : r.isIn = true)
    (hend : readEnding (ending r.reads) = .blocks)
    (htext : heard ++ received r.reads = text ++ more)
    (hwhole : Request.Whole text) (hmore : more ≠ []) :
    talk (httpRound f p) (rs ++ [r]) s =
        talk (converse f) rs .start ++ [.served (spoken f rs .start).sent false false] ∧
      talk (corRound f p) (rs ++ [r]) st =
        talk (converse f) rs .start ++ [.served (spoken f rs .start).sent false false] := by
  obtain ⟨what, hwhat⟩ := Request.longer hwhole hmore
  have hadmits : Phase.Admits r (spoken f rs .start).phase := by
    rw [hphase]
    intro _
    rw [htext, hwhat]
    exact nofun
  have hlast : (converse f r (spoken f rs .start)).2 =
      .served (spoken f rs .start).sent false false := by
    have hjudge : httpRules.judge (heard ++ received r.reads) = .refused := by
      rw [htext]
      exact congrArg judged hwhat
    unfold converse
    rw [if_pos (by rw [hphase]; exact hin)]
    simp only [Round.socketInput, Round.stops, hin, if_true, Talk.step, hphase, hend,
      Talk.heardMore, hjudge, Talk.judged, Phase.isOpen, reduceCtorEq, decide_false]
  obtain ⟨hhttp, hcor⟩ := talk_converses f (rs ++ [r]) (h.same h' hq) h.between
    (hc.snoc hadmits hstill)
  rw [hhttp, hcor, talk_append f rs r hstill, hlast]
  exact ⟨rfl, rfl⟩

end Rounds

/-- A kept connection, and then two requests at once. -/
def pipeline : List Round :=
  [chunk (oneRead (lit "GET / HTTP/1.1\r\nConnection: Keep-Alive\r\n\r\n")), writable 1000]

theorem pipelined_refused_two : ∃ (s : Service) (st : State) (r : Round),
    talk (httpRound okListener 0) (pipeline ++ [r]) s =
        [.served [] true false, .served (lit "HTTP/1.1 200 OK\r\n\r\n") true false,
          .served (lit "HTTP/1.1 200 OK\r\n\r\n") false false] ∧
      talk (corRound okListener 0) (pipeline ++ [r]) st =
        [.served [] true false, .served (lit "HTTP/1.1 200 OK\r\n\r\n") true false,
          .served (lit "HTTP/1.1 200 OK\r\n\r\n") false false] := by
  obtain ⟨⟨σ, -, hs⟩, τ, -, hst, hq⟩ := accepted_first
  have htalk : talk (converse okListener) pipeline .start =
      [.served [] true false, .served (lit "HTTP/1.1 200 OK\r\n\r\n") true false] := by
    decide +kernel
  have hspoken : (spoken okListener pipeline .start).phase = .hearing [] ∧
      (spoken okListener pipeline .start).sent = lit "HTTP/1.1 200 OK\r\n\r\n" := by
    decide +kernel
  have hboth := pipelined_refused okListener pipeline hs hst hq
    (r := chunk (oneRead (lit "GET / HTTP/1.1\r\n\r\nGET / HTTP/1.1\r\n\r\n")))
    (by decide +kernel) (by rw [htalk]; decide) hspoken.1 rfl rfl
    (show _ = lit "GET / HTTP/1.1\r\n\r\n" ++ lit "GET / HTTP/1.1\r\n\r\n" from rfl) whole_bare
    (by decide)
  rw [htalk, hspoken.2] at hboth
  exact ⟨σ.service, τ.state, _, hboth⟩

/-- The requests of `exchange` and the answers to them. -/
theorem conversations_served_exchange : ∃ (s : Service) (st : State)
    (exchanges : List (Bytes × Request)) (rest : Bytes),
    talk (httpRound okListener 0) exchange s = talk (corRound okListener 0) exchange st ∧
      Talk.Accounts httpRules okListener (spoken okListener exchange .start) exchanges rest ∧
      (spoken okListener exchange .start).sent =
        lit "HTTP/1.1 200 OK\r\n\r\nHTTP/1.1 200 OK\r\n\r\n" := by
  obtain ⟨⟨σ, -, hs⟩, τ, -, hst, hq⟩ := accepted_first
  obtain ⟨hhttp, hcor, -, exchanges, rest, haccounts⟩ :=
    conversations_served okListener exchange hs hst hq (by decide +kernel)
  exact ⟨σ.service, τ.state, exchanges, rest, hhttp.trans hcor.symm, haccounts,
    by decide +kernel⟩

end Sphere.Cor
