import Sphere.Http.Awaiting
import Sphere.Http.Scripts

/-! A request that arrives in pieces, one for each read event. The worker waits over a cut
exactly when the text in front of it is one of those on which the parser asks for more. -/

namespace Sphere.Http

open Lib Net

/-- The read events of one connection, as long as the worker waits for more. -/
def readEvents (c : HttpConnection) :
    List (List ReadResult) → HttpConnection × List (Option Next)
  | [] => (c, [])
  | reads :: rest =>
    match tryReadRequest c reads with
    | (c, some .rearm) =>
      let r := readEvents { c.subscribe READ with watch := .armed (c.subscribe READ).epollOption }
        rest
      (r.1, some .rearm :: r.2)
    | (c, next) => (c, [next])

/-- The bytes of one event, after which the socket has no more for now. -/
structure Chunk (reads : List ReadResult) : Prop where
  some_bytes : received reads ≠ []
  blocks : ∃ errno, ending reads = .fail errno ∧ handleError errno = .timeOut errno

def arrived (batches : List (List ReadResult)) : Bytes := batches.flatMap received

/-- Every event but the last leaves the connection armed for reading again, and the last one
hands over `q`. -/
structure HandsOver (c : HttpConnection) (batches : List (List ReadResult)) (q : Request) :
    Prop where
  outcomes : (readEvents c batches).2 =
    List.replicate (batches.length - 1) (some .rearm) ++ [none]
  req : (readEvents c batches).1.req = q

theorem tryRead_chunk {c : HttpConnection} {reads : List ReadResult} (hv : c.valid = true)
    (h : Chunk reads) : tryReadRequest c reads = parseRequest (c.receive (received reads)) := by
  obtain ⟨errno, hend, herr⟩ := h.blocks
  rw [tryReadRequest_eq reads hv, hend, Ending.next, herr]
  rfl

theorem parseRequest_ok {c : HttpConnection} {q : Request} (h : Request.parse c.read = .ok q) :
    parseRequest c = ({ c with keepAlive := isKeepAlive q.headers, req := q }, none) := by
  rw [parseRequest, h]

theorem parseRequest_awaiting {c : HttpConnection} (h : Awaiting (Request.parse c.read)) :
    parseRequest c = (c, some .rearm) := by
  obtain ⟨w, hw⟩ := h
  rw [parseRequest, hw]

theorem parseRequest_rearm (c : HttpConnection) :
    (parseRequest c).2 = some .rearm ↔ Awaiting (Request.parse c.read) := by
  refine ⟨fun h => ?_, fun h => by rw [parseRequest_awaiting h]⟩
  unfold parseRequest at h
  split at h
  · cases h
  · rename_i w hw
    exact ⟨w, hw⟩
  · cases h
  · cases h

/-- A list is cut behind its first element or further on. -/
theorem cuts_cons {α : Type} {P : List α → Prop} (a : α) {l : List α} (hl : l ≠ []) :
    (∀ front rest, a :: l = front ++ rest → front ≠ [] → rest ≠ [] → P front) ↔
      P [a] ∧ ∀ front rest, l = front ++ rest → front ≠ [] → rest ≠ [] → P (a :: front) := by
  refine ⟨fun h => ⟨h [a] l rfl (by simp) hl, fun front rest hsplit _ hrest => ?_⟩, ?_⟩
  · exact h (a :: front) rest (by rw [hsplit]; rfl) (by simp) hrest
  · rintro ⟨hone, hmore⟩ front rest hsplit hfront hrest
    cases front with
    | nil => exact absurd rfl hfront
    | cons d front =>
      obtain ⟨rfl, rfl⟩ : a = d ∧ l = front ++ rest := by simpa using hsplit
      cases front with
      | nil => exact hone
      | cons d' front => exact hmore (d' :: front) rest rfl (by simp) hrest

/-- The connection waits for the next event with what it has read so far. -/
def HttpConnection.awaiting (c : HttpConnection) (bytes : Bytes) : HttpConnection :=
  let c := (c.receive bytes).subscribe READ
  { c with watch := .armed c.epollOption }

theorem readEvents_rearm {c : HttpConnection} {reads : List ReadResult} (hv : c.valid = true)
    (h : Chunk reads) (ha : Awaiting (Request.parse (c.read ++ received reads)))
    (batches : List (List ReadResult)) :
    readEvents c (reads :: batches) =
      ((readEvents (c.awaiting (received reads)) batches).1,
        some .rearm :: (readEvents (c.awaiting (received reads)) batches).2) := by
  rw [readEvents, tryRead_chunk hv h, parseRequest_awaiting ha]
  rfl

theorem readEvents_stop {c : HttpConnection} {reads : List ReadResult} (hv : c.valid = true)
    (h : Chunk reads) (ha : ¬ Awaiting (Request.parse (c.read ++ received reads)))
    (batches : List (List ReadResult)) :
    (readEvents c (reads :: batches)).2 = [(parseRequest (c.receive (received reads))).2] := by
  have hnext := mt (parseRequest_rearm (c.receive (received reads))).mp ha
  rw [readEvents, tryRead_chunk hv h]
  generalize parseRequest (c.receive (received reads)) = r at hnext
  obtain ⟨c', next⟩ := r
  split
  · rename_i c'' heq
    exact absurd (Prod.mk.inj heq).2 hnext
  · rename_i heq
    rw [← (Prod.mk.inj heq).2]

theorem handsOver_rearm {c : HttpConnection} {reads : List ReadResult} (hv : c.valid = true)
    (h : Chunk reads) (ha : Awaiting (Request.parse (c.read ++ received reads)))
    (b : List ReadResult) (batches : List (List ReadResult)) (q : Request) :
    HandsOver c (reads :: b :: batches) q ↔
      HandsOver (c.awaiting (received reads)) (b :: batches) q := by
  have hstep := readEvents_rearm hv h ha (b :: batches)
  have hlen : (reads :: b :: batches).length - 1 = ((b :: batches).length - 1) + 1 := rfl
  refine ⟨fun ⟨ho, hr⟩ => ?_, fun ⟨ho, hr⟩ => ?_⟩
  · rw [hstep, hlen, List.replicate_succ, List.cons_append] at ho
    rw [hstep] at hr
    exact ⟨(List.cons.inj ho).2, hr⟩
  · refine ⟨?_, ?_⟩ <;> rw [hstep]
    · rw [hlen, List.replicate_succ, List.cons_append, ho]
    · exact hr

/-- The worker waits over every cut whose text in front is recognised as cut. -/
theorem handsOver_iff (batches : List (List ReadResult)) {c : HttpConnection} {q : Request}
    (hv : c.valid = true) (hne : batches ≠ []) (hb : ∀ b ∈ batches, Chunk b)
    (hq : Request.parse (c.read ++ arrived batches) = .ok q) :
    HandsOver c batches q ↔ ∀ front rest, batches = front ++ rest → front ≠ [] → rest ≠ [] →
      RequestAwaits (c.read ++ arrived front) := by
  induction batches generalizing c with
  | nil => exact absurd rfl hne
  | cons b batches ih =>
    have hchunk := hb b (by simp)
    cases batches with
    | nil =>
      have hparse : Request.parse (c.receive (received b)).read = .ok q := by
        simpa [arrived, HttpConnection.receive] using hq
      have htry := tryRead_chunk hv hchunk
      rw [parseRequest_ok hparse] at htry
      refine ⟨fun _ front rest hsplit hfront hrest => ?_, fun _ => ?_⟩
      · obtain ⟨rfl, -⟩ | ⟨-, rfl⟩ := List.append_eq_singleton_iff.mp hsplit.symm
        · exact absurd rfl hfront
        · exact absurd rfl hrest
      · refine ⟨?_, ?_⟩ <;> rw [readEvents, htry]
        · rfl
    | cons b' batches =>
      rw [cuts_cons b (by simp), ← Request.parse_awaiting]
      have hone : arrived [b] = received b := List.append_nil _
      rw [hone]
      by_cases ha : Awaiting (Request.parse (c.read ++ received b))
      · have hrest : Request.parse ((c.awaiting (received b)).read ++ arrived (b' :: batches)) =
            .ok q := by
          rw [← hq]
          exact congrArg Request.parse (List.append_assoc ..)
        rw [handsOver_rearm hv hchunk ha, ih (c := c.awaiting (received b)) hv (by simp)
          (fun b'' hb'' => hb b'' (List.mem_cons_of_mem _ hb'')) hrest]
        have hread : ∀ front, (c.awaiting (received b)).read ++ arrived front =
            c.read ++ arrived (b :: front) := fun front => List.append_assoc ..
        simp only [hread, ha, true_and]
      · refine ⟨fun h => ?_, fun h => absurd h.1 ha⟩
        have hlen := congrArg List.length h.outcomes
        rw [readEvents_stop hv hchunk ha] at hlen
        simp at hlen

/-- A text asks for more exactly when it is cut in one of the places that the parser knows,
and a request in pieces is waited for and handed over exactly when every cut is one. -/
theorem fragments_awaited_iff (s : Bytes) :
    (Awaiting (Request.parse s) ↔ RequestAwaits s) ∧
    (Awaiting (Responce.parse s) ↔ ResponceAwaits s) ∧
    ∀ (c : HttpConnection) (batches : List (List ReadResult)) (q : Request), c.valid = true →
      c.read = [] → (∀ b ∈ batches, Chunk b) → Request.parse (arrived batches) = .ok q →
      (HandsOver c batches q ↔ ∀ front rest, batches = front ++ rest → front ≠ [] → rest ≠ [] →
        RequestAwaits (arrived front)) := by
  refine ⟨Request.parse_awaiting s, Responce.parse_awaiting s,
    fun c batches q hv hread hb hq => ?_⟩
  have hne : batches ≠ [] := by
    rintro rfl
    cases hq
  have hiff := handsOver_iff batches hv hne hb (q := q)
  simp only [hread, List.nil_append] at hiff
  exact hiff hq

/-- The pieces `GET / H` and the rest. -/
def twoPieces : List (List ReadResult) :=
  [[.data (oneRead (lit "GET / H"))], [.data (oneRead (lit "TTP/1.1\r\n\r\n"))]]

theorem fragments_awaited_two : HandsOver (.make 0 0) twoPieces
    ⟨lit "GET", lit "/", lit "1.1", [], []⟩ := by
  have hb : ∀ b ∈ twoPieces, Chunk b := by
    intro b hb
    simp only [twoPieces, List.mem_cons, List.not_mem_nil, or_false] at hb
    obtain rfl | rfl := hb <;> exact ⟨by decide, EAGAIN, rfl, rfl⟩
  refine ((fragments_awaited_iff []).2.2 (.make 0 0) twoPieces _ rfl rfl hb (by decide)).mpr ?_
  rw [twoPieces, cuts_cons _ (by simp)]
  refine ⟨(Request.parse_awaiting _).mp ⟨lit "HTTP/", by decide⟩, ?_⟩
  intro front rest hsplit hfront hrest
  obtain ⟨rfl, -⟩ | ⟨-, rfl⟩ := List.append_eq_singleton_iff.mp hsplit.symm
  · exact absurd rfl hfront
  · exact absurd rfl hrest

/-- A request cut behind its target is rejected, and the worker closes the client. -/
theorem cut_behind_target :
    (∃ q, Request.parse (lit "GET /" ++ lit " HTTP/1.1\r\n\r\n") = .ok q) ∧
      Request.parse (lit "GET /") = .error (.incorrectData (lit "Request protocol")) ∧
      (readEvents (.make 0 0) [[.data ⟨lit "GET /", by decide⟩],
        [.data ⟨lit " HTTP/1.1\r\n\r\n", by decide⟩]]).2 = [some (.close .leave)] :=
  ⟨⟨_, rfl⟩, rfl, rfl⟩

/-- Whatever is accepted, there is a cut on which it is rejected. -/
theorem Request.rejected_cut {s : Bytes} {q : Request} (h : Request.parse s = .ok q) :
    ∃ p, p <+: s ∧ p ≠ [] ∧ p ≠ s ∧ ∃ w, Request.parse p = .error (.incorrectData w) := by
  obtain ⟨l, x, ls, eol, rfl, -⟩ := Request.parse_ok_iff.mp h
  have hfront := Request.parse_front l (r := []) nofun
  have hnil : IsToken [] [] := ⟨nofun, nofun, nofun⟩
  rw [List.append_nil, parseProtocol_nil hnil, error_bind] at hfront
  refine ⟨l.front, ?_, ?_, ?_, _, hfront⟩
  · exact ⟨l.gap₂ ++ l.proto.text ++ l.gap₃ ++ CR :: x :: (linesText ls ++ (eol ++ q.body)), by
      simp [RequestLine.front, RequestLine.text]⟩
  · simp [RequestLine.front, l.method_ne]
  · intro heq
    rw [heq, h] at hfront
    cases hfront

theorem Responce.rejected_cut {s : Bytes} {q : Responce} (h : Responce.parse s = .ok q) :
    ∃ p, p <+: s ∧ p ≠ [] ∧ p ≠ s ∧ ∃ w, Responce.parse p = .error (.incorrectData w) := by
  obtain ⟨l, ls, eol, rfl, -⟩ := Responce.parse_ok_iff.mp h
  have hstop := l.stop_gap₁ []
  rw [List.append_nil] at hstop
  have hread : readToken l.gap₁ = .ok ([], []) := by
    have hnil : IsToken [] [] := ⟨nofun, nofun, nofun⟩
    simpa using readToken_append l.blank_gap₁ hnil
  have hcut : Responce.parse (l.lead ++ l.proto.text ++ l.gap₁) =
      .error (.incorrectData (lit "Cannot convert error code")) := by
    rw [Responce.parse_eq, parseProtocol_append l.blank_lead l.proto hstop l.gap₁_ne]
    simp only [ok_bind, Responce.parseCode, hread]
    rfl
  refine ⟨l.lead ++ l.proto.text ++ l.gap₁, ?_, ?_, ?_, _, hcut⟩
  · exact ⟨l.token ++ (l.gap₂ ++ l.text) ++ (CRLF ++ (linesText ls ++ (eol ++ q.body))), by
      simp [ResponceLine.full]⟩
  · simp [l.gap₁_ne]
  · intro heq
    rw [heq, h] at hcut
    cases hcut

end Sphere.Http
