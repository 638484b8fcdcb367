import Sphere.Net.Service

/-! What was passed to `write` is sent once and in order, and what was received is read. -/

namespace Sphere.Net

open Lib.Transition

/-- The bytes the socket took and those still in `write_` are all that was written, and
`read_` is all that came. -/
def Client.Delivered (c : Client) : Prop :=
  c.sent ++ c.write = c.written ∧ c.read = c.received

namespace Client

variable {c c' : Client}

theorem delivered_make (id : ℕ) (fd : ℤ) : (make id fd).Delivered := ⟨rfl, rfl⟩

theorem Delivered.apply (h : c.Delivered) (a : Act) : (a.apply c).Delivered := by
  cases a with
  | write data =>
    refine ⟨?_, h.2⟩
    change c.sent ++ (c.write ++ data) = c.written ++ data
    rw [← List.append_assoc, h.1]
  | _ => exact h

theorem Delivered.after (h : c.Delivered) (acts : List (ℕ × Act)) :
    (c.after acts).Delivered := by
  induction acts generalizing c with
  | nil => exact h
  | cons a acts ih =>
    rw [after_cons]
    split_ifs
    · exact ih (h.apply a.2)
    · exact ih h

theorem Delivered.moves (h : c.Delivered) (hm : c.Moves c') : c'.Delivered ∧ c'.id = c.id := by
  obtain ⟨r, size, hr⟩ | ⟨r, size, hr⟩ := hm
  · obtain ⟨buf, -, -, -, rfl⟩ := readToBuffer_ok hr
    exact ⟨⟨h.1, congrArg (· ++ buf.1) h.2⟩, rfl⟩
  · obtain ⟨n, -, -, -, rfl⟩ := writeFromBuffer_ok hr
    refine ⟨⟨?_, h.2⟩, rfl⟩
    change (c.sent ++ c.write.take n) ++ c.write.drop n = c.written
    rw [List.append_assoc, List.take_append_drop, h.1]

end Client

namespace Service

variable {σ σ' : Service}

/-- The connections have numbers of their own, given out in order. -/
structure Numbered (σ : Service) : Prop where
  nodup : (σ.connections.map (·.id)).Nodup
  lt : ∀ c ∈ σ.connections, c.id < σ.next

theorem Numbered.conn (h : σ.Numbered) {c : Client} (hc : c ∈ σ.connections) :
    σ.conn c.id = some c := by
  unfold Service.conn
  cases hf : σ.connections.find? fun d => d.id = c.id with
  | none => simpa using List.find?_eq_none.mp hf c hc
  | some d =>
    have hid : d.id = c.id := by simpa using List.find?_some hf
    rw [List.inj_on_of_nodup_map h.nodup (List.mem_of_find?_eq_some hf) hc hid]

theorem mem_of_conn {k : ℕ} {c : Client} (h : σ.conn k = some c) :
    c ∈ σ.connections ∧ c.id = k :=
  ⟨List.mem_of_find?_eq_some h, by simpa using List.find?_some h⟩

/-- A change of the connections that keeps their numbers. -/
theorem Numbered.map (h : σ.Numbered) {f : Client → Client}
    (hf : ∀ c ∈ σ.connections, (f c).id = c.id) (hc : σ'.connections = σ.connections.map f)
    (hn : σ'.next = σ.next) : σ'.Numbered := by
  have hids : σ'.connections.map (·.id) = σ.connections.map (·.id) := by
    rw [hc, List.map_map]
    exact List.map_congr_left hf
  refine ⟨hids ▸ h.nodup, fun c hcm => ?_⟩
  rw [hc] at hcm
  obtain ⟨d, hd, rfl⟩ := List.mem_map.mp hcm
  rw [hf d hd, hn]
  exact h.lt d hd

/-- The law for all connections there are and were, and for those that the callbacks
found; one that `onWriteDone` was called for had nothing left to send. -/
structure Kept (σ : Service) : Prop extends Numbered σ where
  connections : ∀ c ∈ σ.connections, c.Delivered
  erased : ∀ c ∈ σ.erased, c.Delivered
  log : ∀ x ∈ σ.log, x.2.Delivered ∧ (x.1 = .onWriteDone → x.2.write = [])

theorem Kept.map (h : σ.Kept) {f : Client → Client}
    (hf : ∀ c ∈ σ.connections, (f c).id = c.id ∧ (f c).Delivered)
    (hc : σ'.connections = σ.connections.map f) (hn : σ'.next = σ.next)
    (he : σ'.erased = σ.erased)
    (hlog : ∀ x ∈ σ'.log, x.2.Delivered ∧ (x.1 = .onWriteDone → x.2.write = [])) :
    σ'.Kept := by
  refine ⟨h.toNumbered.map (fun c hcm => (hf c hcm).1) hc hn, fun c hcm => ?_, ?_, hlog⟩
  · rw [hc] at hcm
    obtain ⟨d, hd, rfl⟩ := List.mem_map.mp hcm
    exact (hf d hd).2
  · rw [he]
    exact h.erased

theorem Kept.modify (h : σ.Kept) (k : ℕ) {f : Client → Client}
    (hf : ∀ c ∈ σ.connections, c.id = k → (f c).id = c.id ∧ (f c).Delivered) :
    (σ.modify k f).Kept := by
  refine h.map (f := fun c => if c.id = k then f c else c) (fun c hc => ?_) rfl rfl rfl h.log
  split_ifs with hk
  · exact hf c hc hk
  · exact ⟨rfl, h.connections c hc⟩

theorem Kept.call (h : σ.Kept) (listener : Listener) (cb : Callback) (k : ℕ)
    (hdone : cb = .onWriteDone → ∀ c, σ.conn k = some c → c.write = []) :
    (σ.call listener cb k).Kept := by
  unfold Service.call
  cases hk : σ.conn k with
  | none => exact h
  | some c =>
    obtain ⟨hf, hlog, hc⟩ := foldl_act (listener cb) { σ with log := (cb, c) :: σ.log }
    refine h.map (fun d hd => ⟨Client.after_id _ _, (h.connections d hd).after _⟩) hc hf.next
      hf.erased ?_
    rw [hlog]
    intro x hx
    obtain rfl | hx := List.mem_cons.mp hx
    · exact ⟨h.connections c (mem_of_conn hk).1, fun hcb => hdone hcb c hk⟩
    · exact h.log x hx

theorem Kept.throw (h : σ.Kept) (e : Exception) : (σ.throw e).Kept :=
  ⟨⟨h.nodup, h.lt⟩, h.connections, h.erased, h.log⟩

theorem Kept.rearm (h : σ.Kept) (k : ℕ) (kernel : Kernel) : (σ.rearm k kernel).Kept := by
  have hused : ({ σ with erasedUsed := true } : Service).Kept :=
    ⟨⟨h.nodup, h.lt⟩, h.connections, h.erased, h.log⟩
  unfold Service.rearm
  split
  · split_ifs
    · exact hused.throw _
    · exact hused
  · split_ifs
    · unfold epollMod
      split_ifs
      · exact h.modify k fun c hc _ => ⟨rfl, h.connections c hc⟩
      · exact h.throw _
    · exact h

theorem Kept.act (h : σ.Kept) (a : ℕ × Act) : (σ.act a).Kept := by
  have hm := h.modify (f := fun c => a.2.apply c) a.1
    fun c hc _ => ⟨Act.apply_id _ _, (h.connections c hc).apply a.2⟩
  unfold Service.act
  split_ifs
  · exact ⟨⟨hm.nodup, hm.lt⟩, hm.connections, hm.erased, hm.log⟩
  · exact hm

theorem Kept.erase (h : σ.Kept) (k : ℕ) : (σ.erase k).Kept := by
  refine ⟨⟨h.nodup.sublist (List.filter_sublist.map _), fun c hc => ?_⟩, fun c hc => ?_,
    fun c hc => ?_, h.log⟩
  · exact h.lt c (List.mem_of_mem_filter hc)
  · exact h.connections c (List.mem_of_mem_filter hc)
  · obtain hc | hc := List.mem_append.mp hc
    · exact h.connections c (List.mem_of_mem_filter hc)
    · exact h.erased c hc

theorem Kept.emplace (h : σ.Kept) (fd : ℤ) : (σ.emplace fd).Kept := by
  refine ⟨⟨?_, ?_⟩, ?_, h.erased, h.log⟩
  · change ((σ.connections ++ [Client.make σ.next fd]).map (·.id)).Nodup
    rw [List.map_append, List.nodup_append]
    refine ⟨h.nodup, by simp, fun a ha b hb => ?_⟩
    obtain ⟨c, hc, rfl⟩ := List.mem_map.mp ha
    obtain rfl : b = σ.next := by simpa [Client.make] using hb
    exact (h.lt c hc).ne
  · intro c hc
    obtain hc | hc := List.mem_append.mp hc
    · exact (h.lt c hc).trans (Nat.lt_succ_self _)
    · obtain rfl := List.mem_singleton.mp hc
      exact Nat.lt_succ_self _
  · intro c hc
    obtain hc | hc := List.mem_append.mp hc
    · exact h.connections c hc
    · obtain rfl := List.mem_singleton.mp hc
      exact Client.delivered_make _ _

theorem Kept.handleServer (h : σ.Kept) (kernel : Kernel) (listener : Listener) :
    (σ.handleServer kernel listener).Kept := by
  unfold Service.handleServer
  split
  · exact h.throw _
  · next fd _ =>
    have hnew := h.emplace fd
    dsimp only
    split_ifs
    · have hwatched := hnew.modify (f := fun c => { c with watch := .armed CLOSE }) σ.next
        fun c hc _ => ⟨rfl, hnew.connections c hc⟩
      refine (hwatched.call listener _ _ ?_).rearm _ kernel
      exact fun hcb => by cases hcb
    · exact hnew.throw _

theorem Kept.dispatch (h : σ.Kept) {ev : EpollEvent} {c : Client} {kernel : Kernel}
    {listener : Listener} (hc : c ∈ σ.connections)
    (hd : σ.dispatch ev c kernel listener = .ok σ') : σ'.Kept := by
  have hown : ∀ c' : Client, c.Moves c' → (σ.modify c.id fun _ => c').Kept := by
    intro c' hm
    obtain ⟨hdel, hid⟩ := (h.connections c hc).moves hm
    exact h.modify c.id fun d _ hd => ⟨hid.trans hd.symm, hdel⟩
  obtain ⟨cb, hdone, rfl⟩ | ⟨c', cb, hm, hcb, rfl⟩ | ⟨c', hm, rfl⟩ | rfl := dispatch_cases hd
  · refine h.call _ _ _ fun hcb d hconn => ?_
    -- the connection the callback is called for is the one whose buffer was found empty
    rw [h.conn hc, Option.some.injEq] at hconn
    rw [← hconn]
    exact hdone hcb
  · exact (hown c' hm).call _ _ _ fun hdone => absurd hdone hcb
  · exact hown c' hm
  · exact h

theorem Kept.handle (h : σ.Kept) (ev : EpollEvent) (kernel : Kernel) (listener : Listener) :
    (σ.handle ev kernel listener).Kept := by
  unfold Service.handle
  split_ifs
  · exact h.handleServer kernel listener
  · split
    · exact ⟨⟨h.nodup, h.lt⟩, h.connections, h.erased, h.log⟩
    · next c hfind =>
      unfold Service.handleClient
      split
      · exact h.throw _
      · next s hd =>
        have hs := h.dispatch (List.mem_of_find?_eq_some hfind) hd
        split_ifs
        · refine (((hs.call listener _ _ ?_).act _).erase _).rearm _ kernel
          exact fun hcb => by cases hcb
        · exact hs.rearm _ kernel

theorem Kept.step {a : Input} (h : σ.Kept) (hstep : σ.step a = some σ') : σ'.Kept := by
  cases a with
  | wait events =>
    obtain ⟨-, hstep⟩ := Option.ite_none_right_eq_some.mp hstep
    obtain rfl := Option.some.inj hstep
    exact ⟨⟨h.nodup, h.lt⟩, h.connections, h.erased, h.log⟩
  | handle kernel listener =>
    obtain ⟨ev, rest, -, -, rfl⟩ := step_handle hstep
    refine Kept.handle ?_ ev kernel listener
    exact ⟨⟨h.nodup, h.lt⟩, h.connections, h.erased, h.log⟩

theorem kept_start (server : ℤ) : (start server).Kept :=
  ⟨⟨List.nodup_nil, by simp [start]⟩, by simp [start], by simp [start], by simp [start]⟩

/-! An exception of `read` or `write` leaves the connections as they were; any other
ending of an event leaves no such exception. -/

def NoTcp (σ : Service) : Prop := ∀ e, σ.exception ≠ some (.tcp e)

theorem NoTcp.of_eq (h : σ.NoTcp) (he : σ'.exception = σ.exception) : σ'.NoTcp :=
  fun e => he ▸ h e

theorem NoTcp.modify (h : σ.NoTcp) (k : ℕ) (f : Client → Client) : (σ.modify k f).NoTcp := h

theorem NoTcp.emplace (h : σ.NoTcp) (fd : ℤ) : (σ.emplace fd).NoTcp := h

theorem NoTcp.erase (h : σ.NoTcp) (k : ℕ) : (σ.erase k).NoTcp := h

theorem NoTcp.call (h : σ.NoTcp) (listener : Listener) (cb : Callback) (k : ℕ) :
    (σ.call listener cb k).NoTcp := by
  unfold Service.call
  split
  · exact h
  · exact h.of_eq (foldl_act _ _).1.exception

theorem NoTcp.rearm (h : σ.NoTcp) (k : ℕ) (kernel : Kernel) : (σ.rearm k kernel).NoTcp := by
  have hepoll : ∀ s : Service, (s.throw .epoll).NoTcp := fun s e he => by cases he
  unfold Service.rearm
  split
  · split_ifs
    · exact hepoll _
    · exact h
  · split_ifs
    · unfold epollMod
      split_ifs
      · exact h
      · exact hepoll _
    · exact h

theorem NoTcp.act (h : σ.NoTcp) (a : ℕ × Act) : (σ.act a).NoTcp := by
  unfold Service.act
  split_ifs <;> exact h

theorem NoTcp.dispatch (h : σ.NoTcp) {ev : EpollEvent} {c : Client} {kernel : Kernel}
    {listener : Listener} (hd : σ.dispatch ev c kernel listener = .ok σ') : σ'.NoTcp := by
  obtain ⟨cb, -, rfl⟩ | ⟨c', cb, -, -, rfl⟩ | ⟨c', -, rfl⟩ | rfl := dispatch_cases hd
  · exact h.call _ _ _
  · exact (h.modify _ _).call _ _ _
  · exact h.modify _ _
  · exact h

theorem NoTcp.handle (h : σ.NoTcp) (ev : EpollEvent) (kernel : Kernel) (listener : Listener) :
    (σ.handle ev kernel listener).connections = σ.connections ∨
      (σ.handle ev kernel listener).NoTcp := by
  unfold Service.handle
  split_ifs
  · unfold handleServer
    split
    · exact .inl rfl
    · dsimp only
      split_ifs
      · exact .inr ((((h.emplace _).modify _ _).call _ _ _).rearm _ kernel)
      · exact .inr fun e he => by cases he
  · split
    · exact .inl rfl
    · unfold handleClient
      split
      · exact .inl rfl
      · next s hd =>
        have hs := h.dispatch hd
        split_ifs
        · exact .inr ((((hs.call _ _ _).act _).erase _).rearm _ kernel)
        · exact .inr (hs.rearm _ kernel)

theorem step_throws {a : Input} {e : TcpError} (hstep : σ.step a = some σ')
    (he : σ'.exception = some (.tcp e)) : σ'.connections = σ.connections := by
  cases a with
  | wait events =>
    obtain ⟨-, hstep⟩ := Option.ite_none_right_eq_some.mp hstep
    obtain rfl := Option.some.inj hstep
    rfl
  | handle kernel listener =>
    obtain ⟨ev, rest, -, -, rfl⟩ := step_handle hstep
    have hno : ({ σ with batch := rest, exception := none } : Service).NoTcp :=
      fun e he => by cases he
    exact (hno.handle ev kernel listener).resolve_right fun hnot => hnot e he

end Service

/-- In every run, for every connection there is or was: what the socket took followed by
`write_` is all that was passed to `write`, and `read_` is all that came; `onWriteDone` is
called when everything written has been taken; and a `read` or `write` that throws changes
no connection. -/
theorem bytes_delivered_once (server : ℤ) (inputs : List Service.Input) (σ : Service)
    (hrun : run Service.step (Service.start server) inputs = some σ) :
    (∀ c, c ∈ σ.connections ∨ c ∈ σ.erased →
      c.sent ++ c.write = c.written ∧ c.read = c.received) ∧
    (∀ x ∈ σ.log, x.1 = .onWriteDone → x.2.sent = x.2.written) ∧
    (∀ a σ' e, σ.step a = some σ' → σ'.exception = some (.tcp e) →
      σ'.connections = σ.connections) := by
  have h : σ.Kept := run_preserves (fun _ _ _ h hstep => h.step hstep)
    (Service.kept_start server) hrun
  refine ⟨fun c hc => ?_, fun x hx hcb => ?_, fun a σ' e hstep he => ?_⟩
  · obtain hc | hc := hc
    · exact h.connections c hc
    · exact h.erased c hc
  · obtain ⟨⟨hsent, -⟩, hdone⟩ := h.log x hx
    rw [hdone hcb, List.append_nil] at hsent
    exact hsent
  · exact Service.step_throws hstep he

/-- Nothing to read, no room to write. -/
def blocked : Kernel := ⟨.error EAGAIN, true, true, .fail EAGAIN, .fail EAGAIN, false⟩

/-- A listener that subscribes a new connection, the first of the run. -/
def subscribes (opt : OPTION) : Listener := fun cb =>
  if cb = .onNewConnection then [(0, .subscribe opt)] else []

/-- A client sends two bytes and is answered three, of which the socket takes two at once. -/
def echoRun : List Service.Input :=
  [.wait [⟨3, READ⟩], .handle { blocked with accept := .ok 5 } (subscribes READ),
    .wait [⟨5, READ⟩],
    .handle { blocked with read := .data (oneRead [1, 2]) } fun cb =>
      if cb = .onReadAvailable then [(0, .write [7, 8, 9]), (0, .subscribe WRITE)] else [],
    .wait [⟨5, WRITE⟩], .handle { blocked with write := .wrote 2 } fun _ => [],
    .wait [⟨5, WRITE⟩], .handle { blocked with write := .wrote 1 } fun _ => [],
    .wait [⟨5, WRITE⟩], .handle blocked fun _ => []]

theorem bytes_delivered_once_echo :
    ∃ σ, run Service.step (Service.start 3) echoRun = some σ ∧
      (∀ x ∈ σ.log, x.1 = .onWriteDone → x.2.sent = x.2.written) ∧
      σ.log.map (fun x => (x.1, x.2.sent)) =
        [(.onWriteDone, [7, 8, 9]), (.onReadAvailable, []), (.onNewConnection, [])] := by
  have hrun : (run Service.step (Service.start 3) echoRun).map
      (fun σ => σ.log.map fun x => (x.1, x.2.sent)) =
        some [(.onWriteDone, [7, 8, 9]), (.onReadAvailable, []), (.onNewConnection, [])] := by
    decide
  obtain ⟨σ, hσ, hlog⟩ := Option.map_eq_some_iff.mp hrun
  exact ⟨σ, hσ, (bytes_delivered_once 3 echoRun σ hσ).2.1, hlog⟩

end Sphere.Net
