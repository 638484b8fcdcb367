import Sphere.Net.Reacting

/-! The server of `5.net/tests/echo.cpp`, over the service. -/

namespace Sphere.Net

open Lib.Transition

/-- `"end"` -/
def endMark : List UInt8 := [0x65, 0x6E, 0x64]

/-- A client that has written `"end"` is answered all that it wrote, backwards. -/
def EchoListner : React
  | .onNewConnection, _ => [.subscribe READ]
  | .onReadAvailable, c =>
    if endMark <:+: c.read then
      [.unsubscribe READ, .write c.read.reverse, .subscribe WRITE]
    else []
  | .onWriteDone, _ => [.unsubscribe WRITE]
  | .onClose, _ | .onError, _ => []

theorem echoListner_open : EchoListner.Open := by
  intro cb c
  cases cb with
  | onReadAvailable =>
    simp only [EchoListner]
    split_ifs <;> simp
  | _ => simp [EchoListner]

namespace Echo

/-- How many times the answer has been reported to be sent. -/
def dones (calls : List (Callback × Client)) : ℕ := calls.countP (·.1 = .onWriteDone)

/-- The client has not written `"end"`. -/
structure Listening (calls : List (Callback × Client)) (c : Client) : Prop where
  text : ¬ endMark <:+: c.received
  written : c.written = []
  watch : c.epollOption.has WRITE = false
  reads : ∀ x ∈ calls, ¬ endMark <:+: x.2.received
  done : dones calls = 0

/-- The client is answered. -/
structure Answering (calls : List (Callback × Client)) (c : Client) : Prop where
  text : endMark <:+: c.received
  written : c.written = c.received.reverse
  watch : c.epollOption.has READ = false
  called : calls ≠ []
  reads : ∀ x ∈ calls, endMark <:+: x.2.received → x.2.received = c.received
  done : ∀ x ∈ calls, x.1 = .onWriteDone → endMark <:+: x.2.received ∧ x.2.write = [] ∧
    x.2.sent = c.received.reverse
  once : dones calls = 0 ∨ dones calls = 1 ∧ c.epollOption.has WRITE = false

variable {calls : List (Callback × Client)} {c : Client}

theorem dones_cons {cb : Callback} (hcb : cb ≠ .onWriteDone) :
    dones ((cb, c) :: calls) = dones calls :=
  List.countP_cons_of_neg (by simpa using hcb)

/-- A callback that does not change the connection. -/
theorem Listening.call (h : Listening calls c) {cb : Callback} (hcb : cb ≠ .onWriteDone) :
    Listening ((cb, c) :: calls) c :=
  ⟨h.text, h.written, h.watch, List.forall_mem_cons.mpr ⟨h.text, h.reads⟩,
    (dones_cons hcb).trans h.done⟩

theorem Answering.call (h : Answering calls c) {cb : Callback} (hcb : cb ≠ .onWriteDone) :
    Answering ((cb, c) :: calls) c := by
  refine ⟨h.text, h.written, h.watch, by simp, List.forall_mem_cons.mpr ⟨fun _ => rfl, h.reads⟩,
    List.forall_mem_cons.mpr ⟨fun he => absurd he hcb, h.done⟩, ?_⟩
  rw [dones_cons hcb]
  exact h.once

/-- The answer is written when the text that has come is found to have the mark. -/
theorem Listening.read (h : Listening calls c) (hc : c.Delivered) (data : List UInt8) :
    Listening ((.onReadAvailable, c.got data) :: calls)
      ((c.got data).does (EchoListner .onReadAvailable (c.got data))) ∨
    Answering ((.onReadAvailable, c.got data) :: calls)
      ((c.got data).does (EchoListner .onReadAvailable (c.got data))) := by
  have hread : (c.got data).read = (c.got data).received := congrArg (· ++ data) hc.2
  have hdones : dones ((.onReadAvailable, c.got data) :: calls) = 0 :=
    (dones_cons (by simp)).trans h.done
  simp only [EchoListner]
  rw [hread]
  split_ifs with hend
  · refine .inr ⟨hend, ?_, ?_, by simp, List.forall_mem_cons.mpr ⟨fun _ => rfl, ?_⟩,
      List.forall_mem_cons.mpr ⟨by simp, ?_⟩, .inl hdones⟩
    · change c.written ++ _ = _
      rw [h.written]
      rfl
    · change ((Client.put ((c.got data).unsubscribe READ) _).subscribe WRITE).epollOption.has
        READ = false
      rw [Client.subscribe_has (by simp)]
      change (((c.got data).unsubscribe READ).epollOption.has READ || WRITE.has READ) = false
      rw [Client.unsubscribe_has (by simp)]
      simp [show READ.has READ = true by decide, show WRITE.has READ = false by decide]
    · exact fun x hx hx' => absurd hx' (h.reads x hx)
    · intro x hx hdone
      have hzero := List.countP_eq_zero.mp h.done x hx
      simp [hdone] at hzero
  · exact .inl ⟨hend, h.written, h.watch, List.forall_mem_cons.mpr ⟨hend, h.reads⟩, hdones⟩

theorem Answering.writeDone (h : Answering calls c) (hc : c.Delivered)
    (hwrite : c.epollOption.has WRITE) (hempty : c.write = []) :
    Answering ((.onWriteDone, c) :: calls) (c.does (EchoListner .onWriteDone c)) := by
  have hsent : c.sent = c.received.reverse := by
    rw [← h.written, ← hc.1, hempty, List.append_nil]
  have hzero : dones calls = 0 := by
    rcases h.once with hz | ⟨-, ho⟩
    · exact hz
    · rw [ho] at hwrite
      cases hwrite
  refine ⟨h.text, h.written, ?_, by simp, List.forall_mem_cons.mpr ⟨fun _ => rfl, h.reads⟩,
    List.forall_mem_cons.mpr ⟨fun _ => ⟨h.text, hempty, hsent⟩, h.done⟩, .inr ⟨?_, ?_⟩⟩
  · change (c.unsubscribe WRITE).epollOption.has READ = false
    rw [Client.unsubscribe_has (by simp), h.watch, Bool.false_and]
  · exact (List.countP_cons_of_pos (by simp)).trans (congrArg (· + 1) hzero)
  · change (c.unsubscribe WRITE).epollOption.has WRITE = false
    rw [Client.unsubscribe_has (by simp)]
    simp [show WRITE.has WRITE = true by decide]

theorem unknown_WRITE : UNKNOWN.has WRITE = false := by decide

theorem listening_or_answering (h : Alone EchoListner calls c) :
    Listening calls c ∨ Answering calls c := by
  induction h with
  | accept id fd => exact .inl ⟨by simp [Client.make, endMark], rfl, unknown_WRITE, by simp, rfl⟩
  | watch w h ih =>
    rcases ih with ⟨ht, hw, ho, hr, hd⟩ | ⟨ht, hw, ho, hc, hr, hd, hn⟩
    · exact .inl ⟨ht, hw, ho, hr, hd⟩
    · exact .inr ⟨ht, hw, ho, hc, hr, hd, hn⟩
  | @onNewConnection c h ih =>
    have ih := ih.resolve_right fun hno => hno.called rfl
    refine .inl ⟨ih.text, ih.written, ?_, List.forall_mem_singleton.mpr ih.text, rfl⟩
    change (c.subscribe READ).epollOption.has WRITE = false
    rw [Client.subscribe_has (by simp), ih.watch]
    rfl
  | @onReadAvailable calls c data h hread hdata ih =>
    refine (ih.resolve_right fun hno => ?_).read h.delivered data
    rw [hno.watch] at hread
    cases hread
  | onError h ih =>
    have hcb : Callback.onError ≠ .onWriteDone := by simp
    exact ih.imp (·.call hcb) (·.call hcb)
  | @write calls c size h hwrite ih =>
    rcases ih with hno | ⟨ht, hw, ho, hc, hr, hd, hn⟩
    · rw [hno.watch] at hwrite
      cases hwrite
    · exact .inr ⟨ht, hw, ho, hc, hr, hd, hn⟩
  | @onWriteDone calls c h hwrite hempty ih =>
    refine .inr ((ih.resolve_left fun hno => ?_).writeDone h.delivered hwrite hempty)
    rw [hno.watch] at hwrite
    cases hwrite
  | onClose h ih =>
    have hcb : Callback.onClose ≠ .onWriteDone := by simp
    rcases ih.imp (·.call hcb) (·.call hcb) with
      ⟨ht, hw, -, hr, hd⟩ | ⟨ht, hw, -, hc, hr, hd, hn⟩
    · exact .inl ⟨ht, hw, unknown_WRITE, hr, hd⟩
    · have hread : UNKNOWN.has READ = false := by decide
      exact .inr ⟨ht, hw, hread, hc, hr, hd, hn.imp id fun hn => ⟨hn.1, unknown_WRITE⟩⟩

end Echo

/-- In every run of the echo server and for every client, whatever the others do: once the text
that has come has the mark nothing more is read, the text is written backwards, once, and
`onWriteDone` is called at most once, when all of it has been sent; until then nothing is
written. -/
theorem echo_answers (server : ℤ) (inputs : List Service.Input) (σ : Service)
    (hserved : Along Service.step (Service.Served EchoListner) (Service.start server) inputs)
    (hrun : run Service.step (Service.start server) inputs = some σ) :
    ∀ c, c ∈ σ.connections ∨ c ∈ σ.erased →
      c.sent ++ c.write = (if endMark <:+: c.received then c.received.reverse else []) ∧
      (∀ x ∈ σ.calls c.id, endMark <:+: x.2.received → x.2.received = c.received) ∧
      (∀ x ∈ σ.calls c.id, x.1 = .onWriteDone →
        endMark <:+: c.received ∧ x.2.sent = c.received.reverse) ∧
      Echo.dones (σ.calls c.id) ≤ 1 := by
  intro c hc
  have halone := (Service.served_abides echoListner_open hserved hrun).1.run hc
  rw [halone.delivered.1]
  rcases Echo.listening_or_answering halone with h | h
  · rw [if_neg h.text]
    refine ⟨h.written, fun x hx hx' => absurd hx' (h.reads x hx), fun x hx hdone => ?_,
      by rw [h.done]; exact Nat.zero_le 1⟩
    have hzero := List.countP_eq_zero.mp h.done x hx
    simp [hdone] at hzero
  · rw [if_pos h.text]
    refine ⟨h.written, h.reads, fun x hx hdone => ⟨h.text, (h.done x hx hdone).2.2⟩, ?_⟩
    rcases h.once with hn | ⟨hn, -⟩ <;> omega

/-- The callbacks of the first client, with what its connection has received by then. -/
def answers (text : List UInt8) : Listener := fun cb =>
  (EchoListner cb { Client.make 0 5 with read := text }).map (0, ·)

/-- A client writes in two parts, the socket takes the answer in two, and the client leaves. -/
def endRun : List Service.Input :=
  [.wait [⟨3, READ⟩], .handle { blocked with accept := .ok 5 } (answers []),
    .wait [⟨5, READ⟩], .handle { blocked with read := .data (oneRead [0x78, 0x65]) }
      (answers [0x78, 0x65]),
    .wait [⟨5, READ⟩], .handle { blocked with read := .data (oneRead [0x6E, 0x64]) }
      (answers [0x78, 0x65, 0x6E, 0x64]),
    .wait [⟨5, WRITE⟩], .handle { blocked with write := .wrote 3 } (answers []),
    .wait [⟨5, WRITE⟩], .handle { blocked with write := .wrote 1 } (answers []),
    .wait [⟨5, WRITE⟩], .handle blocked (answers []),
    .wait [⟨5, CLOSE⟩], .handle blocked (answers [])]

theorem echo_answers_end :
    ∃ σ, run Service.step (Service.start 3) endRun = some σ ∧
      (∀ c ∈ σ.erased, c.sent ++ c.write = [0x64, 0x6E, 0x65, 0x78]) ∧
      σ.erased.map (·.sent) = [[0x64, 0x6E, 0x65, 0x78]] := by
  have hrun : (run Service.step (Service.start 3) endRun).map
      (fun σ => σ.erased.map fun c => (c.received, c.sent)) =
        some [([0x78, 0x65, 0x6E, 0x64], [0x64, 0x6E, 0x65, 0x78])] := by
    decide +kernel
  have hserved : Along Service.step (Service.Served EchoListner) (Service.start 3) endRun := by
    decide +kernel
  obtain ⟨σ, hσ, herased⟩ := Option.map_eq_some_iff.mp hrun
  have hanswers := echo_answers 3 endRun σ hserved hσ
  refine ⟨σ, hσ, fun c hc => ?_, ?_⟩
  · have hmem := List.mem_map_of_mem (f := fun c : Client => (c.received, c.sent)) hc
    rw [herased, List.mem_singleton, Prod.mk.injEq] at hmem
    rw [(hanswers c (.inr hc)).1, hmem.1]
    decide
  · simpa [List.map_map] using congrArg (List.map Prod.snd) herased

end Sphere.Net
