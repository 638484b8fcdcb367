import Sphere.Cor.Agreement
import Sphere.Http.ViewSafety

/-! A failure of a client's socket while an event of the client is handled. The errno that
a loop runs into decides what becomes of it: the handlers know those of a call that would
block, and `EBADF`; every other one is thrown past them. -/

namespace Sphere.Cor

open Lib Net Http SlotPool Settle

def WouldBlock (errno : ℕ) : Prop := errno = EAGAIN ∨ errno = EWOULDBLOCK ∨ errno = EINPROGRESS

instance (errno : ℕ) : Decidable (WouldBlock errno) := by
  unfold WouldBlock
  infer_instance

/-- The calls that handling an event makes on the socket, with their answers. -/
inductive Calls
  | read (reads : List ReadResult)
  | write (writes : List WriteResult)
  | idle

def readErrno (reads : List ReadResult) : Option ℕ :=
  match ending reads with
  | .eof => none
  | .fail errno => some errno

/-- The writing loop runs into a failure unless it comes to the end of the buffer. -/
def writeErrno (pending : Bytes) : List WriteResult → Option ℕ
  | [] => some EAGAIN
  | .wrote n :: writes =>
    if pending.drop n = [] then none else writeErrno (pending.drop n) writes
  | .fail errno :: _ => some errno

/-- The failure that ends the calls. -/
def Calls.errno (c : HttpConnection) : Calls → Option ℕ
  | .read reads => readErrno reads
  | .write writes => writeErrno c.write writes
  | .idle => none

/-- The text that goes to the parser after them. -/
def Calls.text (c : HttpConnection) : Calls → Option Bytes
  | .read reads =>
    if ∃ errno ∈ readErrno reads, WouldBlock errno then some (c.read ++ received reads) else none
  | _ => none

/-- The handlers know the failure, and the parser does not leave its view. -/
structure Calls.Harmless (c : HttpConnection) (calls : Calls) : Prop where
  known : ∀ errno ∈ calls.errno c, WouldBlock errno ∨ errno = EBADF
  safe : ∀ text ∈ calls.text c, ¬ RequestCut text

/-- How control goes on after them; with `none` the loop has ended in `break` or in a
result. -/
structure GoesOn (c : HttpConnection) (calls : Calls) (next : Option Next) : Prop where
  thrown : (∃ err, next = some (.thrown err)) ↔
    ∃ errno ∈ calls.errno c, ¬ (WouldBlock errno ∨ errno = EBADF)
  undefined : next = some .undefined ↔ ∃ text ∈ calls.text c, RequestCut text
  closes : ∀ errno ∈ calls.errno c, errno = EBADF → ∃ k, next = some (.close k)

theorem handleError_cases (errno : ℕ) :
    WouldBlock errno ∧ handleError errno = .timeOut errno ∨
      errno = EBADF ∧ handleError errno = .descriptor errno ∨
      ¬ (WouldBlock errno ∨ errno = EBADF) ∧ handleError errno = .error errno := by
  by_cases hblock : WouldBlock errno
  · exact .inl ⟨hblock, if_pos hblock⟩
  · by_cases hbad : errno = EBADF
    · exact .inr (.inl ⟨hbad, (if_neg hblock).trans (if_pos hbad)⟩)
    · exact .inr (.inr ⟨by simp [hblock, hbad], (if_neg hblock).trans (if_neg hbad)⟩)

theorem not_wouldBlock : ¬ WouldBlock EBADF := by decide

section Calls

variable {c : HttpConnection}

theorem parseRequest_comes (c : HttpConnection) :
    (∀ err, (parseRequest c).2 ≠ some (.thrown err)) ∧
      ((parseRequest c).2 = some .undefined ↔ RequestCut c.read) := by
  rw [← Request.parse_undefined_iff_cut]
  have hdiv := Request.parse_ne_diverges c.read
  unfold parseRequest
  split
  · rename_i req hreq
    simp [hreq]
  · rename_i w hw
    simp [hw]
  · rename_i w hw
    simp [hw]
  · rename_i err hexp hinc herr
    refine ⟨nofun, fun _ => ?_, fun _ => rfl⟩
    cases err with
    | undefined => exact herr
    | diverges => exact absurd herr hdiv
    | expectingData w => exact absurd rfl (hexp w)
    | incorrectData w => exact absurd rfl (hinc w)

theorem tryRead_comes (hv : c.valid = true) (reads : List ReadResult) :
    GoesOn c (.read reads) (tryReadRequest c reads).2 := by
  rw [tryReadRequest_eq reads hv]
  unfold Ending.next
  cases hend : ending reads with
  | eof =>
    have hnone : readErrno reads = none := by simp only [readErrno, hend]
    refine ⟨?_, ?_, ?_⟩ <;> simp [Calls.errno, Calls.text, hnone]
  | fail errno =>
    have hsome : readErrno reads = some errno := by simp only [readErrno, hend]
    obtain ⟨hblock, herr⟩ | ⟨rfl, herr⟩ | ⟨hother, herr⟩ := handleError_cases errno
    · obtain ⟨hthrown, hcut⟩ := parseRequest_comes (c.receive (received reads))
      have hne : errno ≠ EBADF := fun h => not_wouldBlock (h ▸ hblock)
      simp only [herr, readFailed]
      refine ⟨⟨fun h => h.elim fun err h => absurd h (hthrown err), ?_⟩, ?_, ?_⟩
      · simp [Calls.errno, hsome, hblock]
      · rw [hcut]
        simp [Calls.text, hsome, hblock, HttpConnection.receive]
      · simp [Calls.errno, hsome, hne]
    · simp only [herr, readFailed]
      refine ⟨?_, ?_, ?_⟩ <;> simp [Calls.errno, Calls.text, hsome, not_wouldBlock]
    · simp only [herr, readFailed]
      rw [not_or] at hother
      refine ⟨?_, ?_, ?_⟩ <;> simp [Calls.errno, Calls.text, hsome, hother]

/-- How a result of the writing loop goes on. -/
def writeNext : Next ⊕ Bool → Option Next
  | .inl next => some next
  | .inr _ => none

theorem tryWrite_comes (hv : c.valid = true) (writes : List WriteResult) :
    GoesOn c (.write writes) (writeNext (tryWriteResponce c writes).2) := by
  induction writes generalizing c with
  | nil =>
    rw [tryWrite_nil hv]
    have hblock : WouldBlock EAGAIN := .inl rfl
    refine ⟨?_, ?_, ?_⟩ <;> simp [Calls.errno, Calls.text, writeErrno, writeNext, hblock]
    decide
  | cons r writes ih =>
    cases r with
    | wrote n =>
      rw [tryWrite_wrote hv]
      by_cases hempty : (taken c n).write = []
      · rw [if_pos hempty]
        have hnone : c.write.drop n = [] := hempty
        refine ⟨?_, ?_, ?_⟩ <;>
          simp only [Calls.errno, Calls.text, writeErrno, hnone, writeNext] <;>
          simp
      · rw [if_neg hempty]
        have hrest := ih (c := taken c n) hv
        have herrno : Calls.errno c (.write (.wrote n :: writes)) =
            Calls.errno (taken c n) (.write writes) := if_neg hempty
        refine ⟨?_, hrest.undefined, ?_⟩ <;> rw [herrno]
        · exact hrest.thrown
        · exact hrest.closes
    | fail errno =>
      rw [tryWrite_fail hv]
      obtain ⟨hblock, herr⟩ | ⟨rfl, herr⟩ | ⟨hother, herr⟩ := handleError_cases errno
      · have hne : errno ≠ EBADF := fun h => not_wouldBlock (h ▸ hblock)
        rw [herr]
        refine ⟨?_, ?_, ?_⟩ <;>
          simp [Calls.errno, Calls.text, writeErrno, writeFailed, writeNext, hblock, hne]
      · rw [herr]
        refine ⟨?_, ?_, ?_⟩ <;>
          simp [Calls.errno, Calls.text, writeErrno, writeFailed, writeNext]
      · rw [herr]
        rw [not_or] at hother
        refine ⟨?_, ?_, ?_⟩ <;>
          simp [Calls.errno, Calls.text, writeErrno, writeFailed, writeNext, hother]

end Calls

/-- What handling the event makes of it: `out` when an exception leaves the loop, else the
connection is `c'`. `guess` is how the parser goes on where it is undefined. -/
structure Follows (next : Option Next) (guess : Next) (c' : HttpConnection) (out : Bool) :
    Prop where
  thrown : ∀ err, next = some (.thrown err) → out = true
  undefined : next = some .undefined → guess = .undefined → out = true
  stays : (∀ err, next ≠ some (.thrown err)) → next ≠ some .undefined → out = false
  closes : ∀ k, next = some (.close k) → c'.valid = false

theorem goOn_follows (c : HttpConnection) (next guess : Next) :
    Follows (some next) guess (goOn c (if next = .undefined then guess else next)).1
      (goOn c (if next = .undefined then guess else next)).2 := by
  cases next with
  | thrown err => exact ⟨fun _ _ => rfl, fun _ _ => rfl, fun h => absurd rfl (h err), nofun⟩
  | undefined =>
    refine ⟨nofun, fun _ hg => ?_, fun _ h => absurd rfl h, nofun⟩
    rw [if_pos rfl, hg]
    rfl
  | close k => exact ⟨nofun, nofun, fun _ _ => rfl, fun _ _ => rfl⟩
  | rearm => exact ⟨nofun, nofun, fun _ _ => rfl, nofun⟩
  | finish =>
    refine ⟨nofun, nofun, fun _ _ => ?_, nofun⟩
    rw [if_neg (by simp)]
    unfold goOn
    dsimp only
    split <;> rfl

theorem goOn_finish (c : HttpConnection) : (goOn c .finish).2 = false := by
  unfold goOn
  dsimp only
  split <;> rfl

/-- The calls of `HttpWorker`, which the event decides. -/
def httpCalls (e : Event) (reads : List ReadResult) (writes : List WriteResult) : Calls :=
  if e.isIn then .read reads else if e.isOut then .write writes else .idle

theorem http_follows {c : HttpConnection} (hv : c.valid = true) (e : Event) (x : Http.Input) :
    ∃ next, GoesOn c (httpCalls e x.script.reads x.script.writes) next ∧
      Follows next x.guess (Http.handled c e x).1 (Http.handled c e x).2 := by
  have hfinish : ∀ d : HttpConnection, Follows none x.guess (goOn d .finish).1
      (goOn d .finish).2 := fun d => ⟨nofun, nofun, fun _ _ => goOn_finish d, nofun⟩
  have hread := tryRead_comes hv x.script.reads
  have hwrite := tryWrite_comes hv x.script.writes
  unfold Http.handled serve httpCalls
  cases e.isIn
  · cases e.isOut
    · exact ⟨none, ⟨by simp [Calls.errno], by simp [Calls.text], nofun⟩, hfinish c⟩
    · refine ⟨_, hwrite, ?_⟩
      generalize tryWriteResponce c x.script.writes = a
      obtain ⟨c', next | (_ | _)⟩ := a
      · exact goOn_follows c' next x.guess
      · exact hfinish c'
      · exact hfinish (c'.unsubscribe WRITE)
  · refine ⟨_, hread, ?_⟩
    generalize tryReadRequest c x.script.reads = a
    obtain ⟨c', _ | next⟩ := a
    · exact hfinish (onRequest c' x.script.replies)
    · exact goOn_follows c' next x.guess

/-- The calls of `CoroutineWorker`, which the `yield` decides that the routine waits in. -/
def corCalls (stage : Option Point) (reads : List ReadResult) (writes : List WriteResult) : Calls :=
  match stage with
  | none | some .reading => .read reads
  | some .replied | some .writing => .write writes

theorem serveEnd_stays (c : HttpConnection) :
    (serveEnd c).out = false ∧ (c.valid = false → c.epollOption = ET_ONESHOT →
      (serveEnd c).conn.valid = false) := by
  unfold serveEnd
  split
  · refine ⟨rfl, fun hv _ => ?_⟩
    rw [hv]
    exact hv
  · rename_i hne
    exact ⟨rfl, fun _ ho => absurd ho hne⟩

theorem readNext_follows (c : HttpConnection) (next guess : Next) :
    Follows (some next) guess (readNext c (if next = .undefined then guess else next)).conn
      (readNext c (if next = .undefined then guess else next)).out := by
  cases next with
  | thrown err => exact ⟨fun _ _ => rfl, fun _ _ => rfl, fun h => absurd rfl (h err), nofun⟩
  | undefined =>
    refine ⟨nofun, fun _ hg => ?_, fun _ h => absurd rfl h, nofun⟩
    rw [if_pos rfl, hg]
    rfl
  | close k => exact ⟨nofun, nofun, fun _ _ => rfl, fun _ _ => rfl⟩
  | rearm => exact ⟨nofun, nofun, fun _ _ => rfl, nofun⟩
  | finish => exact ⟨nofun, nofun, fun _ _ => (serveEnd_stays c).1, nofun⟩

theorem readHandled_follows {c : HttpConnection} (hv : c.valid = true) (x : Input) :
    ∃ next, GoesOn c (.read x.reads) next ∧
      Follows next x.guess (readHandled c x).conn (readHandled c x).out := by
  refine ⟨_, tryRead_comes hv x.reads, ?_⟩
  unfold readHandled
  generalize tryReadRequest c x.reads = a
  obtain ⟨c', _ | next⟩ := a
  · exact ⟨nofun, nofun, fun _ _ => rfl, nofun⟩
  · have hfollows := readNext_follows c' next x.guess
    cases next with
    | undefined => exact hfollows
    | _ => exact hfollows

theorem writeHandled_follows {c : HttpConnection} (hv : c.valid = true) (x : Input) :
    ∃ next, GoesOn c (.write x.writes) next ∧
      Follows next x.guess (writeHandled c x).conn (writeHandled c x).out := by
  have hcomes := tryWrite_comes hv x.writes
  have hundefined : writeNext (tryWriteResponce c x.writes).2 ≠ some .undefined := by
    rw [Ne, hcomes.undefined]
    simp [Calls.text]
  refine ⟨_, hcomes, ?_⟩
  unfold writeHandled
  generalize tryWriteResponce c x.writes = a at *
  obtain ⟨c', next | (_ | _)⟩ := a
  · cases next with
    | thrown err => exact ⟨fun _ _ => rfl, nofun, fun h => absurd rfl (h err), nofun⟩
    | undefined => exact absurd rfl hundefined
    | _ =>
      obtain ⟨hout, hclosed⟩ := serveEnd_stays c'.close
      exact ⟨nofun, nofun, fun _ _ => hout, fun _ _ => hclosed rfl rfl⟩
  · refine ⟨nofun, nofun, fun _ _ => ?_, nofun⟩
    dsimp only
    split
    · exact (serveEnd_stays c').1
    · rfl
  · exact ⟨nofun, nofun, fun _ _ => (serveEnd_stays _).1, nofun⟩

theorem cor_follows {c : HttpConnection} (hv : c.valid = true) (now : ℤ) (x : Input)
    (stage : Option Point) :
    ∃ next, GoesOn c (corCalls stage x.reads x.writes) next ∧
      Follows next x.guess (handled c now x stage).conn (handled c now x stage).out := by
  cases stage with
  | none =>
    obtain ⟨next, hgoes, hfollows⟩ := readHandled_follows (c := { c with start := now }) hv x
    exact ⟨next, ⟨hgoes.thrown, hgoes.undefined, hgoes.closes⟩, hfollows⟩
  | some k =>
    cases k with
    | reading => exact readHandled_follows hv x
    | replied => exact writeHandled_follows hv x
    | writing => exact writeHandled_follows hv x

/-- Failures the handlers know stay inside the loop, and `EBADF` closes the connection. -/
theorem Follows.harmless {c c' : HttpConnection} {calls : Calls} {next : Option Next}
    {guess : Next} {out : Bool} (h : Follows next guess c' out) (hg : GoesOn c calls next)
    (hc : calls.Harmless c) :
    out = false ∧ ∀ errno ∈ calls.errno c, ¬ WouldBlock errno → c'.valid = false := by
  refine ⟨h.stays (fun err hthrown => ?_) fun hundefined => ?_, fun errno he hblock => ?_⟩
  · obtain ⟨errno, he, hother⟩ := hg.thrown.mp ⟨err, hthrown⟩
    exact hother (hc.known errno he)
  · obtain ⟨text, ht, hcut⟩ := hg.undefined.mp hundefined
    exact hc.safe text ht hcut
  · obtain ⟨k, hk⟩ := hg.closes errno he ((hc.known errno he).resolve_left hblock)
    exact h.closes k hk

theorem Follows.harmful {c c' : HttpConnection} {calls : Calls} {next : Option Next} {out : Bool}
    (h : Follows next .undefined c' out) (hg : GoesOn c calls next) (hout : out = false) :
    calls.Harmless c := by
  refine ⟨fun errno he => ?_, fun text ht hcut => ?_⟩
  · by_contra hother
    obtain ⟨err, hthrown⟩ := hg.thrown.mpr ⟨errno, he, hother⟩
    exact absurd ((h.thrown err hthrown).symm.trans hout) (by simp)
  · have hundefined := hg.undefined.mpr ⟨text, ht, hcut⟩
    exact absurd ((h.undefined hundefined rfl).symm.trans hout) (by simp)

/-- The acceptor has put the client into place `p`, and no thread is at work on it. -/
structure Registered (p : ℕ) (s : Service) : Prop where
  valid : (s.conn p).valid = true
  watch : (s.conn p).watch ≠ .absent
  mutex : s.mutex p = none
  free : s.closingMutex = none

/-- No exception leaves the loop, a failure that is not that of a call that would block closes
place `p`, and the other places are as they were. -/
structure Contained (p : ℕ) (failure : Option ℕ) (s s' : Service) (out : Bool) : Prop where
  stays : out = false
  closes : ∀ errno ∈ failure, ¬ WouldBlock errno →
    (s'.conn p).valid = false ∧ s'.closed = s.closed ++ [p]
  others : ∀ q, q ≠ p → s'.conn q = s.conn q ∧ s'.mutex q = s.mutex q
  iters : s.Linked p → ∀ q, s'.iter q = s.iter q

/-- The routines of other places have not run. -/
def KeepsOthers (p : ℕ) (st st' : State) : Prop :=
  ∀ r routine, st.main.routines[r]? = some routine → routine.func ≠ p → r ∉ st.main.finished →
    st'.main.routines[r]? = some routine ∧ st'.frame r = st.frame r

section Workers

variable {p pConn r₀ place : ℕ} {s : Service} {st : State} {e : Event} {stage : Option Point}

theorem Alters.contained {s' : Service} {c : HttpConnection} {calls : Calls}
    (h : Alters p s c none (if c.valid then s.closed else s.closed ++ [p]) s')
    (hc : ∀ errno ∈ calls.errno (s.conn p), ¬ WouldBlock errno → c.valid = false) :
    Contained p (calls.errno (s.conn p)) s s' false := by
  refine ⟨rfl, fun errno he hblock => ?_, h.others, h.iters⟩
  have hv := hc errno he hblock
  rw [h.conn, h.closed, hv]
  exact ⟨rfl, rfl⟩

/-- `HttpWorker`. -/
theorem http_contained_iff (reads : List ReadResult) (writes : List WriteResult) (he : e.place = p)
    (h : Registered p s) :
    (∀ i x, x.script.reads = reads → x.script.writes = writes →
      ∃ t, Http.Worker.handle i x 11 s ⟨.looping, [e], pConn⟩ = some t ∧
        Contained p ((httpCalls e reads writes).errno (s.conn p)) s t.1 t.2.2) ↔
      (httpCalls e reads writes).Harmless (s.conn p) := by
  have hserved : ∀ i x, ∃ t : Http.Stepped Http.Worker,
      Http.Worker.handle i x 11 s ⟨.looping, [e], pConn⟩ = some t ∧
        Http.Served i p s (Http.handled { s.conn p with start := s.now } e x) t :=
    fun i x => Http.Worker.handle_served (n := 0) he h.valid h.watch h.mutex h.free
  have hfollows : ∀ x : Http.Input, _ := fun x =>
    http_follows (c := { s.conn p with start := s.now }) h.valid e x
  refine ⟨fun hall => ?_, fun hharmless i x hr hw => ?_⟩
  · obtain ⟨x, rfl, rfl, hx⟩ : ∃ x : Http.Input, x.script.reads = reads ∧
        x.script.writes = writes ∧ x.guess = .undefined :=
      ⟨⟨⟨reads, writes, []⟩, .undefined, false, .empty⟩, rfl, rfl, rfl⟩
    obtain ⟨t, ht, hcontained⟩ := hall 0 x rfl rfl
    obtain ⟨t', ht', hs⟩ := hserved 0 x
    obtain rfl := Option.some.inj (ht.symm.trans ht')
    obtain ⟨next, hg, hf⟩ := hfollows x
    rw [hx] at hf
    have hharmless := hf.harmful hg (by
      by_contra hout
      have hleaves := (hs.leaves (by simpa using hout)).1
      exact absurd (hcontained.stays.symm.trans hleaves) (by simp))
    exact ⟨hharmless.known, hharmless.safe⟩
  · subst hr hw
    obtain ⟨t, ht, hs⟩ := hserved i x
    obtain ⟨next, hg, hf⟩ := hfollows x
    obtain ⟨hout, hcloses⟩ := hf.harmless hg ⟨hharmless.known, hharmless.safe⟩
    have hback := hs.stays hout
    refine ⟨t, ht, ?_⟩
    rw [hback.stays]
    exact Alters.contained hback.alters hcloses

/-- `CoroutineWorker`. -/
theorem cor_contained_iff (reads : List ReadResult) (writes : List WriteResult) (he : e.place = p)
    (h : Registered p st.service) (hq : Queued st) (hs : Stands st p stage) :
    (∀ i x, x.reads = reads → x.writes = writes →
      ∃ t, Worker.handle i x 15 st ⟨.looping, [e], pConn, r₀, place⟩ = some t ∧
        Contained p ((corCalls stage reads writes).errno (st.service.conn p)) st.service
          t.1.service t.2.2 ∧ KeepsOthers p st t.1) ↔
      (corCalls stage reads writes).Harmless (st.service.conn p) := by
  have hserved : ∀ i x, ∃ r, Own st p r ∧ ∃ t : Stepped,
      Worker.handle i x 15 st ⟨.looping, [e], pConn, r₀, place⟩ = some t ∧
        Served i p st r
          (handled { st.service.conn p with routine := some r } st.service.now x stage) t :=
    fun i x => Worker.handle_served (n := 0) he h.valid h.watch h.mutex h.free hq hs
  have hfollows : ∀ (r : ℕ) (x : Input), _ := fun r x =>
    cor_follows (c := { st.service.conn p with routine := some r }) h.valid st.service.now x stage
  refine ⟨fun hall => ?_, fun hharmless i x hr hw => ?_⟩
  · obtain ⟨x, rfl, rfl, hx⟩ : ∃ x : Input, x.reads = reads ∧ x.writes = writes ∧
        x.guess = .undefined :=
      ⟨{ plainInput with reads, writes, guess := .undefined }, rfl, rfl, rfl⟩
    obtain ⟨t, ht, hcontained, -⟩ := hall 0 x rfl rfl
    obtain ⟨r, -, t', ht', hs⟩ := hserved 0 x
    obtain rfl := Option.some.inj (ht.symm.trans ht')
    obtain ⟨next, hg, hf⟩ := hfollows r x
    rw [hx] at hf
    have hharmless := hf.harmful hg (by
      by_contra hout
      have hleaves := (hs.leaves (by simpa using hout)).1
      exact absurd (hcontained.stays.symm.trans hleaves) (by simp))
    exact ⟨hharmless.known, hharmless.safe⟩
  · subst hr hw
    obtain ⟨r, hown, t, ht, hs⟩ := hserved i x
    obtain ⟨next, hg, hf⟩ := hfollows r x
    obtain ⟨hout, hcloses⟩ := hf.harmless hg ⟨hharmless.known, hharmless.safe⟩
    have hback := hs.stays hout
    refine ⟨t, ht, ?_, fun k routine hget hfunc hfree => ?_⟩
    · rw [hback.stays]
      exact Alters.contained hback.runs.service hcloses
    · have hne : k ≠ r := by
        rintro rfl
        exact (hown routine hget).elim hfunc hfree
      obtain ⟨hroutines, hframe⟩ := hback.runs.others k hne
      exact ⟨hroutines.trans hget, hframe⟩

/-- A failure that ends the calls made for one event stays with its client, whichever worker
handles it, exactly when it is that of a call that would block or `EBADF`, and the text
read so far is none on which the parser leaves its view. -/
theorem failures_contained (reads : List ReadResult) (writes : List WriteResult) (he : e.place = p)
    (h : Registered p s) (h' : Registered p st.service) (hq : Queued st) (hs : Stands st p stage) :
    ((∀ i x, x.script.reads = reads → x.script.writes = writes →
      ∃ t, Http.Worker.handle i x 11 s ⟨.looping, [e], pConn⟩ = some t ∧
        Contained p ((httpCalls e reads writes).errno (s.conn p)) s t.1 t.2.2) ↔
      (httpCalls e reads writes).Harmless (s.conn p)) ∧
    ((∀ i x, x.reads = reads → x.writes = writes →
      ∃ t, Worker.handle i x 15 st ⟨.looping, [e], pConn, r₀, place⟩ = some t ∧
        Contained p ((corCalls stage reads writes).errno (st.service.conn p)) st.service
          t.1.service t.2.2 ∧ KeepsOthers p st t.1) ↔
      (corCalls stage reads writes).Harmless (st.service.conn p)) :=
  ⟨http_contained_iff reads writes he h, cor_contained_iff reads writes he h' hq hs⟩

end Workers

/-- A read that fails with `ECONNRESET`. -/
def httpReset : List Http.Act :=
  Http.accepts 8 ++ [.raise 0 ⟨0, 0, true, false⟩] ++ Http.works 0 3 ++
    [.worker 0 { Http.plainInput with script := ⟨[.fail ECONNRESET], [], []⟩ }]

def corReset : List Act :=
  accepts 8 ++ [.raise 0 ⟨0, 0, true, false⟩] ++ works 0 5 ++
    [.worker 0 { plainInput with reads := [.fail ECONNRESET] }]

/-- The exception leaves the loop of either worker, and the client is not closed. -/
theorem reset_leaves_loop :
    (∃ σ, (Http.System.start 20 60).run httpReset = some σ ∧ σ.halted = true ∧
      (σ.service.conn 0).valid = true ∧ σ.service.closed = []) ∧
    ∃ σ, (System.start 20 60).run corReset = some σ ∧ σ.halted = true ∧
      (σ.state.service.conn 0).valid = true ∧ σ.state.service.closed = [] := by
  have hhttp : ((Http.System.start 20 60).run httpReset).map (fun σ =>
      (σ.halted, (σ.service.conn 0).valid, σ.service.closed)) = some (true, true, []) := by
    decide +kernel
  have hcor : ((System.start 20 60).run corReset).map (fun σ =>
      (σ.halted, (σ.state.service.conn 0).valid, σ.state.service.closed)) =
      some (true, true, []) := by decide +kernel
  obtain ⟨σ, hσ, hq⟩ := Option.map_eq_some_iff.mp hhttp
  obtain ⟨τ, hτ, hq'⟩ := Option.map_eq_some_iff.mp hcor
  simp only [Prod.mk.injEq] at hq hq'
  exact ⟨⟨σ, hσ, hq⟩, τ, hτ, hq'⟩

theorem Accepted.registered {p : ℕ} {s : Service} (h : Accepted p s) : Registered p s := by
  obtain ⟨id, now, hc⟩ := h.conn
  refine ⟨?_, ?_, h.mutex, h.free⟩ <;> rw [hc]
  · rfl
  · nofun

/-- Bytes, and then a descriptor that cannot be read from. -/
def unreadable : List ReadResult := [.data (oneRead (lit "GET")), .fail EBADF]

theorem unreadable_errno : readErrno unreadable = some EBADF := by decide

theorem unreadable_harmless (c : HttpConnection) : (Calls.read unreadable).Harmless c := by
  refine ⟨fun errno he => ?_, fun text ht => ?_⟩
  · rw [Calls.errno, unreadable_errno] at he
    exact .inr (Option.some.inj he).symm
  · simp [Calls.text, unreadable_errno, not_wouldBlock] at ht

theorem failures_contained_unreadable : ∃ (s : Service) (st : State),
    (∃ t, Http.Worker.handle 0 { Http.plainInput with script := ⟨unreadable, [], []⟩ } 11 s
        ⟨.looping, [⟨0, 0, true, false⟩], 0⟩ = some t ∧
      (t.1.conn 0).valid = false ∧ t.1.closed = s.closed ++ [0]) ∧
    ∃ t, Worker.handle 0 { plainInput with reads := unreadable, writes := [] } 15 st
        ⟨.looping, [⟨0, 0, true, false⟩], 0, 0, 0⟩ = some t ∧
      (t.1.service.conn 0).valid = false ∧ t.1.service.closed = st.service.closed ++ [0] := by
  obtain ⟨⟨σ, -, hs⟩, τ, -, hst, hq⟩ := accepted_first
  have hstands : Stands τ.state 0 none := by
    obtain ⟨id, now, hc⟩ := hst.conn
    show (τ.state.service.conn 0).routine = none
    rw [hc]
    rfl
  obtain ⟨hhttp, hcor⟩ := failures_contained (e := ⟨0, 0, true, false⟩) unreadable [] rfl
    hs.registered hst.registered hq hstands
  obtain ⟨t, ht, hc⟩ := hhttp.mpr (unreadable_harmless _) 0
    { Http.plainInput with script := ⟨unreadable, [], []⟩ } rfl rfl
  obtain ⟨t', ht', hc', -⟩ := hcor.mpr (unreadable_harmless _) 0
    { plainInput with reads := unreadable, writes := [] } rfl rfl
  exact ⟨σ.service, τ.state, ⟨t, ht, hc.closes EBADF unreadable_errno not_wouldBlock⟩,
    t', ht', hc'.closes EBADF unreadable_errno not_wouldBlock⟩

end Sphere.Cor
