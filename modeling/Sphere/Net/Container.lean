import Sphere.Net.Buffers

/-! What `connections_` holds, and when the loop touches a connection it has erased. -/

namespace Sphere.Net

open Lib.Transition

/-- What `find_if` and the tests of the socket see. -/
def Client.key (c : Client) : ℕ × Bool × ℤ := (c.id, c.valid, c.fd)

/-- The operation gives the connection an option, whatever it had. -/
def Act.arms : Act → Bool
  | .subscribe _ | .unsubscribe _ => true
  | _ => false

theorem add_CLOSE_ne_UNKNOWN (o : OPTION) : o + CLOSE ≠ UNKNOWN := by
  intro h
  have hbit : (o.bits ||| 0x2000#32).getLsbD 13 = false := by
    have hbits : o.bits ||| 0x2000#32 = 0#32 := congrArg OPTION.bits h
    rw [hbits]
    decide
  rw [BitVec.getLsbD_or] at hbit
  simp at hbit

namespace Client

theorem apply_key (c : Client) {a : Act} (ha : a ≠ .close) : (a.apply c).key = c.key := by
  cases a with
  | close => exact absurd rfl ha
  | _ => rfl

theorem after_key (c : Client) {acts : List (ℕ × Act)}
    (h : ∀ a ∈ acts, a.1 = c.id → a.2 ≠ .close) : (c.after acts).key = c.key := by
  induction acts generalizing c with
  | nil => rfl
  | cons a acts ih =>
    rw [after_cons]
    split_ifs with hid
    · rw [ih _ fun b hb hbid => h b (by simp [hb]) (by simpa using hbid)]
      exact apply_key c (h a (by simp) hid.symm)
    · exact ih _ fun b hb => h b (by simp [hb])

/-- Without a `close` the option is lost by nothing and given by each (un)subscription. -/
theorem after_option (c : Client) {acts : List (ℕ × Act)}
    (h : ∀ a ∈ acts, a.1 = c.id → a.2 ≠ .close) :
    (c.after acts).epollOption = UNKNOWN ↔
      c.epollOption = UNKNOWN ∧ ∀ a ∈ acts, a.1 = c.id → a.2.arms = false := by
  induction acts generalizing c with
  | nil => simp [after]
  | cons a acts ih =>
    have hrest : ∀ d : Client, d.id = c.id → ∀ b ∈ acts, b.1 = d.id → b.2 ≠ .close :=
      fun d hd b hb hbid => h b (by simp [hb]) (hbid.trans hd)
    rw [after_cons, List.forall_mem_cons]
    split_ifs with hid
    · rw [ih _ (hrest _ (Act.apply_id _ _))]
      cases ha : a.2 with
      | close => exact absurd ha (h a (by simp) hid.symm)
      | write data => simp [Act.apply, put, Act.arms]
      | read => simp [Act.apply, Act.arms]
      | subscribe opt =>
        simp [Act.apply, subscribe, Act.arms, hid, add_CLOSE_ne_UNKNOWN]
      | unsubscribe opt =>
        simp [Act.apply, unsubscribe, Act.arms, hid, add_CLOSE_ne_UNKNOWN]
    · rw [ih _ (hrest _ rfl)]
      simp [Ne.symm hid]

end Client

namespace Service

variable {σ σ' : Service}

theorem conn_isSome_iff {k : ℕ} : (σ.conn k).isSome ↔ k ∈ σ.connections.map (·.id) := by
  simp [Service.conn, List.find?_isSome]

/-- One of the operations closes a connection that exists. -/
def Closes (σ : Service) (acts : List (ℕ × Act)) : Prop :=
  ∃ a ∈ acts, a.2 = .close ∧ a.1 ∈ σ.connections.map (·.id)

instance (σ : Service) (acts : List (ℕ × Act)) : Decidable (σ.Closes acts) :=
  inferInstanceAs (Decidable (∃ a ∈ acts, _))

theorem act_ids (a : ℕ × Act) :
    (σ.act a).connections.map (·.id) = σ.connections.map (·.id) := by
  have hids : ((σ.modify a.1 fun c => a.2.apply c).connections).map (·.id)
      = σ.connections.map (·.id) := by
    rw [modify, List.map_map]
    refine List.map_congr_left fun c _ => ?_
    dsimp only [Function.comp]
    split_ifs <;> simp
  unfold Service.act
  split_ifs <;> exact hids

theorem closed_foldl (acts : List (ℕ × Act)) (σ : Service) :
    (∀ k ∈ σ.closed, k ∈ (acts.foldl act σ).closed) ∧
    (¬ σ.Closes acts → (acts.foldl act σ).closed = σ.closed) ∧
    (σ.Closes acts → ∃ k ∈ σ.connections.map (·.id), k ∈ (acts.foldl act σ).closed) := by
  induction acts generalizing σ with
  | nil => exact ⟨fun k hk => hk, fun _ => rfl, fun ⟨a, ha, _⟩ => by simp at ha⟩
  | cons a acts ih =>
    obtain ⟨hsub, hno, hyes⟩ := ih (σ.act a)
    have hrest : (σ.act a).Closes acts ↔ σ.Closes acts := by
      unfold Closes
      rw [act_ids]
    rw [act_ids, hrest] at hyes
    rw [hrest] at hno
    have hone : (σ.act a).closed =
        if a.2 = .close ∧ (σ.conn a.1).isSome then a.1 :: σ.closed else σ.closed := by
      unfold Service.act
      split_ifs <;> rfl
    simp only [conn_isSome_iff] at hone
    refine ⟨fun k hk => hsub k ?_, fun hc => ?_, fun hc => ?_⟩
    · rw [hone]
      split_ifs
      · exact List.mem_cons_of_mem _ hk
      · exact hk
    · have hac : ¬ (a.2 = .close ∧ a.1 ∈ σ.connections.map (·.id)) :=
        fun h => hc ⟨a, by simp, h⟩
      rw [List.foldl_cons, hno fun ⟨b, hb, h⟩ => hc ⟨b, by simp [hb], h⟩, hone, if_neg hac]
    · obtain ⟨b, hb, hclose, hid⟩ := hc
      rcases List.mem_cons.mp hb with rfl | hb
      · refine ⟨b.1, hid, hsub _ ?_⟩
        rw [hone, if_pos ⟨hclose, hid⟩]
        exact List.mem_cons_self
      · exact hyes ⟨b, hb, hclose, hid⟩

/-! The invariant of the container, and the condition that keeps it. -/

/-- The container holds the accepted connections that were not closed, once each, and
their descriptors are valid and apart. -/
structure Exact (σ : Service) : Prop where
  mem_iff : ∀ k, k ∈ σ.connections.map (·.id) ↔ k < σ.next ∧ k ∉ σ.closed
  nodup : (σ.connections.map (·.id)).Nodup
  valid : ∀ c ∈ σ.connections, c.valid = true ∧ 0 ≤ c.fd
  fds : (σ.connections.map (·.fd)).Nodup

/-- The descriptor of the event about to be handled is found, in one connection. -/
def Resolves (σ : Service) : Prop :=
  ∀ ev ∈ σ.batch.head?, ev.fd ≠ σ.server →
    ∃ c, σ.connections.filter (fun c => c.fd = ev.fd) = [c]

def Holds (σ : Service) (a : Input) : Prop :=
  ∀ σ', σ.step a = some σ' →
    (∀ kernel listener, a = .handle kernel listener → σ.Resolves) ∧
    σ'.Exact ∧ σ'.erasedUsed = false

/-- The callback for a client event, when one is called before the test for closing. -/
def invoked (ev : EpollEvent) (c : Client) (kernel : Kernel) : Option Callback :=
  if ev.events.has EPOLLERR then some .onError
  else if ev.events.has READ then
    match kernel.read with
    | .data buf => some (if buf.1.length = 0 then .onError else .onReadAvailable)
    | .fail _ => none
  else if ev.events.has WRITE then
    if c.write ≠ [] then
      match kernel.write with
      | .wrote size => if min size c.write.length = 0 then some .onError else none
      | .fail _ => none
    else some .onWriteDone
  else none

/-- The `read` or `write` of a client event throws. -/
def fails (ev : EpollEvent) (c : Client) (kernel : Kernel) : Bool :=
  if ev.events.has EPOLLERR then false
  else if ev.events.has READ then kernel.read matches .fail _
  else if ev.events.has WRITE then c.write ≠ [] && kernel.write matches .fail _
  else false

/-- The operations of the listener before the test for closing. -/
def before (ev : EpollEvent) (c : Client) (kernel : Kernel) (listener : Listener) :
    List (ℕ × Act) :=
  match invoked ev c kernel with
  | some cb => listener cb
  | none => []

/-- The listener closes no connection when a new one is accepted. -/
def KeepsNew (σ : Service) (kernel : Kernel) (listener : Listener) : Prop :=
  match kernel.accept with
  | .ok fd => kernel.add = true → ¬ (σ.emplace fd).Closes (listener .onNewConnection)
  | .error _ => True

/-- A client event whose `read` or `write` does not throw: the listener closes no
connection, and the event does not carry `EPOLLRDHUP` and leaves its connection subscribed
to something. -/
def KeepsOld (σ : Service) (kernel : Kernel) (listener : Listener) (ev : EpollEvent)
    (c : Client) : Prop :=
  fails ev c kernel = false →
    ¬ σ.Closes (before ev c kernel listener) ∧ ev.events.has CLOSE = false ∧
      (c.epollOption ≠ UNKNOWN ∨
        ∃ a ∈ before ev c kernel listener, a.1 = c.id ∧ a.2.arms = true)

/-- No connection is closed. -/
def KeepsAll (σ : Service) (kernel : Kernel) (listener : Listener) (ev : EpollEvent) : Prop :=
  if ev.fd = σ.server then σ.KeepsNew kernel listener
  else ∀ c ∈ σ.connections, c.fd = ev.fd → σ.KeepsOld kernel listener ev c

def Keeps (σ : Service) : Input → Prop
  | .wait _ => True
  | .handle kernel listener => ∀ ev ∈ σ.batch.head?, σ.KeepsAll kernel listener ev

theorem keepsNew_iff (kernel : Kernel) (listener : Listener) :
    (∀ fd ∈ kernel.accept.toOption, kernel.add = true →
      ¬ (σ.emplace fd).Closes (listener .onNewConnection)) ↔ σ.KeepsNew kernel listener := by
  unfold KeepsNew
  cases kernel.accept <;> simp [Except.toOption]

instance (σ : Service) (kernel : Kernel) (listener : Listener) :
    Decidable (σ.KeepsNew kernel listener) :=
  decidable_of_iff _ (keepsNew_iff kernel listener)

instance (σ : Service) (kernel : Kernel) (listener : Listener) (ev : EpollEvent) (c : Client) :
    Decidable (σ.KeepsOld kernel listener ev c) :=
  inferInstanceAs (Decidable (_ → _))

instance (σ : Service) (a : Input) : Decidable (σ.Keeps a) := by
  unfold Keeps KeepsAll
  split <;> infer_instance

/-- Nothing was ever closed. -/
structure Sound (σ : Service) : Prop extends Numbered σ where
  closed : σ.closed = []
  full : ∀ k < σ.next, k ∈ σ.connections.map (·.id)
  valid : ∀ c ∈ σ.connections, c.valid = true ∧ 0 ≤ c.fd ∧ c.fd ≠ σ.server
  fds : (σ.connections.map (·.fd)).Nodup
  erasedUsed : σ.erasedUsed = false
  batch : ∀ ev ∈ σ.batch, ev.fd = σ.server ∨ ∃ c ∈ σ.connections, c.fd = ev.fd

theorem Sound.exact (h : σ.Sound) : σ.Exact := by
  refine ⟨fun k => ⟨fun hk => ?_, fun hk => h.full k hk.1⟩, h.nodup,
    fun c hc => ⟨(h.valid c hc).1, (h.valid c hc).2.1⟩, h.fds⟩
  obtain ⟨c, hc, rfl⟩ := List.mem_map.mp hk
  rw [h.closed]
  exact ⟨h.lt c hc, by simp⟩

/-- A change that the container does not show. -/
structure Quiet (σ σ' : Service) : Prop where
  keys : σ'.connections.map Client.key = σ.connections.map Client.key
  next : σ'.next = σ.next
  closed : σ'.closed = σ.closed
  server : σ'.server = σ.server
  erasedUsed : σ'.erasedUsed = σ.erasedUsed
  batch : ∀ ev ∈ σ'.batch, ev ∈ σ.batch

theorem Quiet.refl (σ : Service) : Quiet σ σ := ⟨rfl, rfl, rfl, rfl, rfl, fun _ h => h⟩

theorem Quiet.trans {σ'' : Service} (h : Quiet σ σ') (h' : Quiet σ' σ'') : Quiet σ σ'' :=
  ⟨h'.keys.trans h.keys, h'.next.trans h.next, h'.closed.trans h.closed,
    h'.server.trans h.server, h'.erasedUsed.trans h.erasedUsed,
    fun ev hev => h.batch ev (h'.batch ev hev)⟩

theorem Quiet.ids (h : Quiet σ σ') :
    σ'.connections.map (·.id) = σ.connections.map (·.id) := by
  have hk := congrArg (List.map Prod.fst) h.keys
  simpa [List.map_map, Function.comp_def, Client.key] using hk

theorem Quiet.fds (h : Quiet σ σ') :
    σ'.connections.map (·.fd) = σ.connections.map (·.fd) := by
  have hk := congrArg (List.map fun x => x.2.2) h.keys
  simpa [List.map_map, Function.comp_def, Client.key] using hk

theorem Quiet.back (h : Quiet σ σ') {c' : Client} (hc : c' ∈ σ'.connections) :
    ∃ c ∈ σ.connections, c.key = c'.key := by
  have hm := List.mem_map_of_mem (f := Client.key) hc
  rw [h.keys] at hm
  exact List.mem_map.mp hm

theorem Sound.quiet (h : σ.Sound) (hq : Quiet σ σ') : σ'.Sound := by
  refine ⟨⟨?_, fun c' hc' => ?_⟩, ?_, fun k hk => ?_, fun c' hc' => ?_, ?_, ?_,
    fun ev hev => ?_⟩
  · rw [hq.ids]
    exact h.nodup
  · obtain ⟨c, hc, hkey⟩ := hq.back hc'
    rw [← (Prod.mk.inj hkey).1, hq.next]
    exact h.lt c hc
  · rw [hq.closed]
    exact h.closed
  · rw [hq.ids]
    exact h.full k (hq.next ▸ hk)
  · obtain ⟨c, hc, hkey⟩ := hq.back hc'
    simp only [Client.key, Prod.mk.injEq] at hkey
    rw [← hkey.2.1, ← hkey.2.2, hq.server]
    exact h.valid c hc
  · rw [hq.fds]
    exact h.fds
  · rw [hq.erasedUsed]
    exact h.erasedUsed
  · rw [hq.server]
    rcases h.batch ev (hq.batch ev hev) with hs | ⟨c, hc, hfd⟩
    · exact .inl hs
    · have hm : ev.fd ∈ σ'.connections.map (·.fd) := by
        rw [hq.fds, ← hfd]
        exact List.mem_map_of_mem hc
      obtain ⟨c', hc', hfd'⟩ := List.mem_map.mp hm
      exact .inr ⟨c', hc', hfd'⟩

theorem quiet_modify (k : ℕ) {f : Client → Client}
    (hf : ∀ c ∈ σ.connections, c.id = k → (f c).key = c.key) : Quiet σ (σ.modify k f) := by
  refine ⟨?_, rfl, rfl, rfl, rfl, fun _ h => h⟩
  change (σ.connections.map fun c => if c.id = k then f c else c).map Client.key = _
  rw [List.map_map]
  refine List.map_congr_left fun c hc => ?_
  dsimp only [Function.comp]
  split_ifs with hk
  · exact hf c hc hk
  · rfl

theorem quiet_throw (e : Exception) : Quiet σ (σ.throw e) :=
  ⟨rfl, rfl, rfl, rfl, rfl, fun _ h => by cases h⟩

theorem quiet_call (listener : Listener) (cb : Callback) (k : ℕ)
    (hno : ¬ σ.Closes (listener cb)) : Quiet σ (σ.call listener cb k) := by
  unfold Service.call
  split
  · exact .refl σ
  · next c _ =>
    obtain ⟨hf, -, hc⟩ := foldl_act (listener cb) { σ with log := (cb, c) :: σ.log }
    have hclosed := (closed_foldl (listener cb) { σ with log := (cb, c) :: σ.log }).2.1 hno
    refine ⟨?_, hf.next, hclosed, hf.server, hf.erasedUsed, fun ev hev => by rwa [hf.batch] at hev⟩
    rw [hc, List.map_map]
    refine List.map_congr_left fun d hd => d.after_key fun a ha hid hclose => ?_
    refine hno ⟨a, ha, hclose, ?_⟩
    rw [hid]
    exact List.mem_map_of_mem hd

/-- As long as the connection exists. -/
theorem quiet_rearm {k : ℕ} (kernel : Kernel) (hk : k ∈ σ.connections.map (·.id)) :
    Quiet σ (σ.rearm k kernel) := by
  obtain ⟨c, hc⟩ := Option.isSome_iff_exists.mp (conn_isSome_iff.mpr hk)
  unfold Service.rearm
  rw [hc]
  dsimp only
  split_ifs
  · unfold epollMod
    split_ifs
    · exact quiet_modify k fun d _ _ => rfl
    · exact quiet_throw _
  · exact .refl σ

theorem conn_map {k : ℕ} {f : Client → Client} (hf : ∀ c, (f c).id = c.id)
    (hc : σ'.connections = σ.connections.map f) : σ'.conn k = (σ.conn k).map f := by
  unfold Service.conn
  rw [hc, List.find?_map]
  simp only [Function.comp_def, hf]

/-- The state in which the test for closing is made: what the listener's operations before
it have done. -/
structure Before (σ s : Service) (c : Client) (acts : List (ℕ × Act)) : Prop where
  ids : s.connections.map (·.id) = σ.connections.map (·.id)
  conn : ∃ d, s.conn c.id = some d ∧ (¬ σ.Closes acts →
    (d.epollOption = UNKNOWN ↔
      c.epollOption = UNKNOWN ∧ ∀ a ∈ acts, a.1 = c.id → a.2.arms = false))
  quiet : ¬ σ.Closes acts → Quiet σ s
  closes : σ.Closes acts → ∃ k ∈ σ.connections.map (·.id), k ∈ s.closed

theorem before_none {c d : Client} (hq : Quiet σ σ') (hd : σ'.conn c.id = some d)
    (ho : d.epollOption = c.epollOption) : Before σ σ' c [] :=
  ⟨hq.ids, ⟨d, hd, fun _ => by simp [ho]⟩, fun _ => hq, fun ⟨a, ha, _⟩ => by simp at ha⟩

theorem before_call {c d : Client} (hq : Quiet σ σ') (hd : σ'.conn c.id = some d)
    (ho : d.epollOption = c.epollOption) (listener : Listener) (cb : Callback) :
    Before σ (σ'.call listener cb c.id) c (listener cb) := by
  have hcloses : σ'.Closes (listener cb) ↔ σ.Closes (listener cb) := by
    unfold Closes
    rw [hq.ids]
  obtain ⟨hdm, hid⟩ := mem_of_conn hd
  have hcall : σ'.call listener cb c.id
      = (listener cb).foldl act { σ' with log := (cb, d) :: σ'.log } := by
    rw [Service.call, hd]
  obtain ⟨-, -, hc⟩ := foldl_act (listener cb) { σ' with log := (cb, d) :: σ'.log }
  obtain ⟨-, -, hyes⟩ := closed_foldl (listener cb) { σ' with log := (cb, d) :: σ'.log }
  rw [← hcall] at hc hyes
  refine ⟨?_, ⟨d.after (listener cb), ?_, fun hno => ?_⟩, fun hno => ?_, fun hyes' => ?_⟩
  · rw [hc, List.map_map, ← hq.ids]
    exact List.map_congr_left fun e _ => Client.after_id _ e
  · rw [conn_map (fun e => Client.after_id _ e) hc]
    change (σ'.conn c.id).map _ = _
    rw [hd]
    rfl
  · rw [Client.after_option, hid, ho]
    refine fun a ha haid hclose => hno ⟨a, ha, hclose, ?_⟩
    rw [haid, ← hq.ids]
    exact List.mem_map_of_mem hdm
  · exact hq.trans (quiet_call listener cb c.id fun h => hno (hcloses.mp h))
  · obtain ⟨k, hk, hkc⟩ := hyes (hcloses.mpr hyes')
    exact ⟨k, hq.ids ▸ hk, hkc⟩

theorem readToBuffer_valid {c : Client} (hv : c.valid = true)
    (buf : {b : List UInt8 // b.length ≤ BUF_SIZE}) :
    ∃ c', c.readToBuffer (.data buf) = .ok (buf.1.length, c') ∧ c'.key = c.key ∧
      c'.epollOption = c.epollOption := by
  refine ⟨{ c with read := c.read ++ buf.1, received := c.received ++ buf.1 }, ?_, rfl, rfl⟩
  simp [Client.readToBuffer, BufferedConnection.readToBuffer, hv]

theorem writeFromBuffer_valid {c : Client} (hv : c.valid = true) (size : ℕ) :
    ∃ c', c.writeFromBuffer (.wrote size) = .ok (min size c.write.length, c') ∧
      c'.key = c.key ∧ c'.epollOption = c.epollOption := by
  refine ⟨{ c with write := c.write.drop size, sent := c.sent ++ c.write.take size }, ?_,
    rfl, rfl⟩
  simp [Client.writeFromBuffer, BufferedConnection.writeFromBuffer, hv]

theorem Numbered.conn_replace (h : σ.Numbered) {c c' : Client} (hc : c ∈ σ.connections)
    (hid : c'.id = c.id) : (σ.modify c.id fun _ => c').conn c.id = some c' := by
  unfold Service.conn
  change ((σ.connections.map fun d => if d.id = c.id then c' else d).find? _) = _
  rw [List.find?_map]
  have hcomp : ((fun d : Client => decide (d.id = c.id)) ∘
      fun d => if d.id = c.id then c' else d) = fun d => decide (d.id = c.id) := by
    funext d
    dsimp only [Function.comp]
    split_ifs with hd
    · rw [hid, hd]
    · rfl
  have hfind : (σ.connections.find? fun d => decide (d.id = c.id)) = some c := h.conn hc
  rw [hcomp, hfind]
  simp

/-- The object in the container is replaced by one with the same socket and option. -/
theorem Sound.replace (h : σ.Sound) {c c' : Client} (hc : c ∈ σ.connections)
    (hkey : c'.key = c.key) :
    Quiet σ (σ.modify c.id fun _ => c') ∧
      (σ.modify c.id fun _ => c').conn c.id = some c' := by
  refine ⟨quiet_modify c.id fun d hd hdid => ?_, h.conn_replace hc (Prod.mk.inj hkey).1⟩
  rw [hkey, List.inj_on_of_nodup_map h.nodup hd hc hdid]

theorem Sound.dispatch (h : σ.Sound) (ev : EpollEvent) {c : Client} (kernel : Kernel)
    (listener : Listener) (hc : c ∈ σ.connections) :
    (fails ev c kernel = true ∧ ∃ e, σ.dispatch ev c kernel listener = .error e) ∨
    (fails ev c kernel = false ∧ ∃ s, σ.dispatch ev c kernel listener = .ok s ∧
      Before σ s c (before ev c kernel listener)) := by
  have hv := (h.valid c hc).1
  have hconn := h.conn hc
  unfold fails before invoked Service.dispatch
  split_ifs with herr hin hout hbuf
  · exact .inr ⟨rfl, _, rfl, before_call (.refl σ) hconn rfl listener _⟩
  · cases hr : kernel.read with
    | fail errno =>
      refine .inl ⟨rfl, ?_⟩
      simp [Client.readToBuffer, BufferedConnection.readToBuffer, hv]
    | data buf =>
      obtain ⟨c', hread, hkey, hopt⟩ := readToBuffer_valid hv buf
      obtain ⟨hq, hc'⟩ := h.replace hc hkey
      rw [hread]
      exact .inr ⟨rfl, _, rfl, before_call hq hc' hopt listener _⟩
  · cases hw : kernel.write with
    | fail errno =>
      refine .inl ⟨by simp [hbuf], ?_⟩
      simp [Client.writeFromBuffer, BufferedConnection.writeFromBuffer, hv]
    | wrote size =>
      obtain ⟨c', hwrite, hkey, hopt⟩ := writeFromBuffer_valid hv size
      obtain ⟨hq, hc'⟩ := h.replace hc hkey
      rw [hwrite]
      refine .inr ⟨by simp, _, rfl, ?_⟩
      dsimp only
      split_ifs with hsize
      · exact before_call hq hc' hopt listener _
      · exact before_none hq hc' hopt
  · exact .inr ⟨by simp [hbuf], _, rfl, before_call (.refl σ) hconn rfl listener _⟩
  · exact .inr ⟨rfl, _, rfl, before_none (.refl σ) hconn rfl⟩

/-- The object is gone, and its socket is asked for. -/
theorem erasedUsed_of_ends (s : Service) (k : ℕ) (kernel : Kernel) :
    ((s.erase k).rearm k kernel).erasedUsed = true := by
  have hgone : (s.erase k).conn k = none := by
    unfold Service.conn
    rw [List.find?_eq_none]
    intro c hc
    have := (List.mem_filter.mp hc).2
    simpa using this
  unfold Service.rearm
  rw [hgone]
  dsimp only
  split_ifs <;> rfl

theorem ends_iff {s : Service} {ev : EpollEvent} {k : ℕ} {d : Client} (hd : s.conn k = some d) :
    s.ends ev k = true ↔ d.epollOption = UNKNOWN ∨ ev.events.has CLOSE = true := by
  rw [ends, hd, Option.any_some, decide_eq_true_eq]

/-- A closed connection that is still in the container. -/
theorem not_exact_of_closed {k : ℕ} (hk : k ∈ σ.connections.map (·.id)) (hc : k ∈ σ.closed) :
    ¬ σ.Exact :=
  fun h => ((h.mem_iff k).mp hk).2 hc

theorem Sound.good (h : σ.Sound) : σ.Exact ∧ σ.erasedUsed = false := ⟨h.exact, h.erasedUsed⟩

theorem Sound.handleClient (h : σ.Sound) (ev : EpollEvent) {c : Client} (kernel : Kernel)
    (listener : Listener) (hc : c ∈ σ.connections) :
    let σ' := σ.handleClient ev c kernel listener
    (σ'.Exact ∧ σ'.erasedUsed = false ↔ σ.KeepsOld kernel listener ev c) ∧
      (σ.KeepsOld kernel listener ev c → σ'.Sound) := by
  intro σ'
  rcases h.dispatch ev kernel listener hc with ⟨hfail, e, hd⟩ | ⟨hfail, s, hd, hb⟩
  · have hs : σ'.Sound := by
      have hσ' : σ' = σ.throw (.tcp e) := by simp only [σ', Service.handleClient, hd]
      rw [hσ']
      exact h.quiet (quiet_throw _)
    have hk : σ.KeepsOld kernel listener ev c := fun hf => by rw [hfail] at hf; cases hf
    exact ⟨iff_of_true hs.good hk, fun _ => hs⟩
  · obtain ⟨d, hconn, hopt⟩ := hb.conn
    have hmem : c.id ∈ s.connections.map (·.id) := hb.ids ▸ List.mem_map_of_mem hc
    by_cases hends : s.ends ev c.id = true
    · have hσ' : σ'.erasedUsed = true := by
        simp only [σ', Service.handleClient, hd, hends, if_true]
        exact erasedUsed_of_ends _ _ _
      have hno : ¬ σ.KeepsOld kernel listener ev c := by
        intro hk
        obtain ⟨hcl, hrd, hsub⟩ := hk hfail
        rcases (ends_iff hconn).mp hends with hu | hr
        · obtain ⟨hco, hall⟩ := (hopt hcl).mp hu
          rcases hsub with hne | ⟨a, ha, hid, harm⟩
          · exact hne hco
          · rw [hall a ha hid] at harm
            cases harm
        · rw [hrd] at hr
          cases hr
      exact ⟨iff_of_false (fun hx => by rw [hσ'] at hx; cases hx.2) hno, fun hk => absurd hk hno⟩
    · have hσ' : σ' = s.rearm c.id kernel := by
        simp only [σ', Service.handleClient, hd, hends, if_false, Bool.false_eq_true]
      have hq : Quiet s σ' := hσ' ▸ quiet_rearm kernel hmem
      by_cases hcl : σ.Closes (before ev c kernel listener)
      · obtain ⟨k, hk, hkc⟩ := hb.closes hcl
        have hnot : ¬ σ'.Exact := by
          refine not_exact_of_closed (k := k) ?_ (hq.closed ▸ hkc)
          rw [hq.ids, hb.ids]
          exact hk
        have hno : ¬ σ.KeepsOld kernel listener ev c := fun hk => (hk hfail).1 hcl
        exact ⟨iff_of_false (fun hx => hnot hx.1) hno, fun hk => absurd hk hno⟩
      · have hs : σ'.Sound := h.quiet ((hb.quiet hcl).trans hq)
        have hk : σ.KeepsOld kernel listener ev c := by
          intro _
          rw [ends_iff hconn, not_or] at hends
          refine ⟨hcl, by simpa using hends.2, ?_⟩
          by_contra hnone
          push Not at hnone
          refine hends.1 ((hopt hcl).mpr ⟨hnone.1, fun a ha hid => ?_⟩)
          simpa using hnone.2 a ha hid
        exact ⟨iff_of_true hs.good hk, fun _ => hs⟩

theorem Sound.emplace (h : σ.Sound) {fd : ℤ} (hfd : σ.Fresh fd) : (σ.emplace fd).Sound := by
  obtain ⟨hpos, hserver, hfresh⟩ := hfd
  have hids : (σ.emplace fd).connections.map (·.id) = σ.connections.map (·.id) ++ [σ.next] := by
    simp [Service.emplace, Client.make]
  have hfds : (σ.emplace fd).connections.map (·.fd) = σ.connections.map (·.fd) ++ [fd] := by
    simp [Service.emplace, Client.make]
  refine ⟨⟨?_, fun c hc => ?_⟩, h.closed, fun k hk => ?_, fun c hc => ?_, ?_, h.erasedUsed,
    fun ev hev => ?_⟩
  · rw [hids, List.nodup_append]
    refine ⟨h.nodup, by simp, fun a ha b hb => ?_⟩
    obtain ⟨c, hc, rfl⟩ := List.mem_map.mp ha
    obtain rfl := List.mem_singleton.mp hb
    exact (h.lt c hc).ne
  · rcases List.mem_append.mp hc with hc | hc
    · exact (h.lt c hc).trans (Nat.lt_succ_self _)
    · obtain rfl := List.mem_singleton.mp hc
      exact Nat.lt_succ_self _
  · rw [hids, List.mem_append, List.mem_singleton]
    rcases Nat.lt_succ_iff_lt_or_eq.mp hk with hk | rfl
    · exact .inl (h.full k hk)
    · exact .inr rfl
  · rcases List.mem_append.mp hc with hc | hc
    · exact h.valid c hc
    · obtain rfl := List.mem_singleton.mp hc
      exact ⟨rfl, hpos, hserver⟩
  · rw [hfds, List.nodup_append]
    refine ⟨h.fds, by simp, fun a ha b hb => ?_⟩
    obtain ⟨c, hc, rfl⟩ := List.mem_map.mp ha
    obtain rfl := List.mem_singleton.mp hb
    exact hfresh c hc
  · rcases h.batch ev hev with hs | ⟨c, hc, hcfd⟩
    · exact .inl hs
    · exact .inr ⟨c, List.mem_append_left _ hc, hcfd⟩

theorem Sound.handleServer (h : σ.Sound) {kernel : Kernel} (listener : Listener)
    (hk : σ.Admits kernel) :
    let σ' := σ.handleServer kernel listener
    (σ'.Exact ∧ σ'.erasedUsed = false ↔ σ.KeepsNew kernel listener) ∧
      (σ.KeepsNew kernel listener → σ'.Sound) := by
  intro σ'
  cases hacc : kernel.accept with
  | error errno =>
    have hs : σ'.Sound := by
      simp only [σ', Service.handleServer, hacc]
      exact h.quiet (quiet_throw _)
    have hkeeps : σ.KeepsNew kernel listener := by simp [KeepsNew, hacc]
    exact ⟨iff_of_true hs.good hkeeps, fun _ => hs⟩
  | ok fd =>
    have hnew : (σ.emplace fd).Sound := h.emplace (by simpa [Admits, hacc] using hk)
    cases hadd : kernel.add with
    | false =>
      have hs : σ'.Sound := by
        simp only [σ', Service.handleServer, hacc, hadd, Bool.false_eq_true, if_false]
        exact hnew.quiet (quiet_throw _)
      have hkeeps : σ.KeepsNew kernel listener := by simp [KeepsNew, hacc, hadd]
      exact ⟨iff_of_true hs.good hkeeps, fun _ => hs⟩
    | true =>
      have hmem : σ.next ∈ (σ.emplace fd).connections.map (·.id) :=
        hnew.full σ.next (Nat.lt_succ_self _)
      have hwatch : Quiet (σ.emplace fd) ((σ.emplace fd).modify σ.next
          fun c => { c with watch := .armed CLOSE }) := quiet_modify _ fun c _ _ => rfl
      obtain ⟨d, hd⟩ := Option.isSome_iff_exists.mp (conn_isSome_iff.mpr (hwatch.ids ▸ hmem))
      have hid : d.id = σ.next := (mem_of_conn hd).2
      have hb := before_call (c := d) hwatch (by rw [hid]; exact hd) rfl listener
        .onNewConnection
      rw [hid] at hb
      have hσ' : σ' = (((σ.emplace fd).modify σ.next fun c => { c with watch := .armed CLOSE }).call
          listener .onNewConnection σ.next).rearm σ.next kernel := by
        simp only [σ', Service.handleServer, hacc, hadd, if_true]
      have hq := hσ' ▸ quiet_rearm kernel (hb.ids ▸ hmem)
      by_cases hcl : (σ.emplace fd).Closes (listener .onNewConnection)
      · obtain ⟨k, hk, hkc⟩ := hb.closes hcl
        have hnot : ¬ σ'.Exact := by
          refine not_exact_of_closed (k := k) ?_ (hq.closed ▸ hkc)
          rw [hq.ids, hb.ids]
          exact hk
        have hno : ¬ σ.KeepsNew kernel listener := by simp [KeepsNew, hacc, hadd, hcl]
        exact ⟨iff_of_false (fun hx => hnot hx.1) hno, fun hk => absurd hk hno⟩
      · have hs : σ'.Sound := hnew.quiet ((hb.quiet hcl).trans hq)
        have hk : σ.KeepsNew kernel listener := by simp [KeepsNew, hacc, hcl]
        exact ⟨iff_of_true hs.good hk, fun _ => hs⟩

/-- A descriptor that is found is found once. -/
theorem filter_fd {l : List Client} (h : (l.map (·.fd)).Nodup) {c : Client} (hc : c ∈ l) :
    l.filter (fun d => d.fd = c.fd) = [c] := by
  induction l with
  | nil => cases hc
  | cons d l ih =>
    rw [List.map_cons, List.nodup_cons] at h
    obtain ⟨hd, hl⟩ := h
    rcases List.mem_cons.mp hc with rfl | hc
    · have hnone : l.filter (fun e => e.fd = c.fd) = [] := by
        rw [List.filter_eq_nil_iff]
        intro e he hfd
        have hfd : e.fd = c.fd := by simpa using hfd
        exact hd (hfd ▸ List.mem_map_of_mem he)
      rw [List.filter_cons_of_pos (by simp), hnone]
    · have hne : d.fd ≠ c.fd := fun hfd => hd (hfd ▸ List.mem_map_of_mem hc)
      rw [List.filter_cons_of_neg (by simpa using hne)]
      exact ih hl hc

theorem Sound.resolves (h : σ.Sound) : σ.Resolves := by
  intro ev hev hserver
  rcases h.batch ev (List.mem_of_mem_head? hev) with hs | ⟨c, hc, hfd⟩
  · exact absurd hs hserver
  · exact ⟨c, hfd ▸ filter_fd h.fds hc⟩

theorem Sound.step {a : Input} (h : σ.Sound) (hstep : σ.step a = some σ') :
    (σ.Holds a ↔ σ.Keeps a) ∧ (σ.Keeps a → σ'.Sound) := by
  have hholds : σ.Holds a ↔ σ'.Exact ∧ σ'.erasedUsed = false := by
    constructor
    · intro hh
      exact (hh σ' hstep).2
    · intro hg s hs
      obtain rfl := Option.some.inj (hstep.symm.trans hs)
      exact ⟨fun _ _ _ => h.resolves, hg⟩
  rw [hholds]
  cases a with
  | wait events =>
    obtain ⟨⟨-, -, hev, -⟩, hstep⟩ := Option.ite_none_right_eq_some.mp hstep
    obtain rfl := Option.some.inj hstep
    have hs : ({ σ with batch := events } : Service).Sound := by
      refine ⟨⟨h.nodup, h.lt⟩, h.closed, h.full, h.valid, h.fds, h.erasedUsed, fun ev hm => ?_⟩
      rcases hev ev hm with hsrv | ⟨c, hc, -, hfd⟩
      · exact .inl hsrv
      · exact .inr ⟨c, hc, hfd⟩
    exact ⟨iff_of_true hs.good trivial, fun _ => hs⟩
  | handle kernel listener =>
    obtain ⟨ev, rest, hbatch, hadm, rfl⟩ := step_handle hstep
    have hs : ({ σ with batch := rest, exception := none } : Service).Sound :=
      h.quiet ⟨rfl, rfl, rfl, rfl, rfl, fun e he => by
        rw [hbatch]
        exact List.mem_cons_of_mem _ he⟩
    have hkeeps : σ.Keeps (.handle kernel listener) ↔ σ.KeepsAll kernel listener ev := by
      simp [Keeps, hbatch]
    rw [hkeeps]
    unfold KeepsAll Service.handle
    split_ifs with hsrv
    · exact hs.handleServer listener hadm
    · rcases h.batch ev (by rw [hbatch]; exact List.mem_cons_self) with hsrv' | ⟨c, hc, hfd⟩
      · exact absurd hsrv' hsrv
      · have hfind : (σ.connections.find? fun d => d.fd = ev.fd) = some c := by
          rw [← List.head?_filter, ← hfd, filter_fd h.fds hc]
          rfl
        dsimp only
        rw [hfind]
        have hone := hs.handleClient ev kernel listener hc
        have hall : ∀ P : Client → Prop, (∀ d ∈ σ.connections, d.fd = ev.fd → P d) ↔ P c := by
          refine fun P => ⟨fun hP => hP c hc hfd, fun hP d hd hdfd => ?_⟩
          rwa [List.inj_on_of_nodup_map h.fds hd hc (hdfd.trans hfd.symm)]
        rw [hall]
        exact hone

theorem sound_start (server : ℤ) : (start server).Sound :=
  ⟨⟨List.nodup_nil, by simp [start]⟩, rfl, by simp [start], by simp [start], List.nodup_nil, rfl,
    by simp [start]⟩

end Service

/-- In every run, over any batches of events and any listener: each step leaves the
container exact and touches no erased connection, and each event finds its connection, if
and only if no connection is ever closed. -/
theorem container_exact_iff (server : ℤ) (inputs : List Service.Input) (σ : Service)
    (hrun : run Service.step (Service.start server) inputs = some σ) :
    Along Service.step Service.Holds (Service.start server) inputs ↔
      Along Service.step Service.Keeps (Service.start server) inputs :=
  run_along_iff (I := Service.Sound) (fun _ _ _ h hstep => h.step hstep)
    (Service.sound_start server) hrun

theorem container_exact_echo :
    ∃ σ, run Service.step (Service.start 3) echoRun = some σ ∧
      Along Service.step Service.Holds (Service.start 3) echoRun := by
  have hrun : (run Service.step (Service.start 3) echoRun).isSome := by decide
  obtain ⟨σ, hσ⟩ := Option.isSome_iff_exists.mp hrun
  exact ⟨σ, hσ, (container_exact_iff 3 echoRun σ hσ).mpr (by decide)⟩

/-- A client connects and disconnects. -/
def leavingRun : List Service.Input :=
  [.wait [⟨3, READ⟩], .handle { blocked with accept := .ok 5 } (subscribes READ),
    .wait [⟨5, READ + CLOSE⟩], .handle { blocked with read := .data (oneRead []) } fun _ => []]

/-- The listener closes a connection as soon as it is accepted. -/
def refusingRun : List Service.Input :=
  [.wait [⟨3, READ⟩],
    .handle { blocked with accept := .ok 5 } fun cb =>
      if cb = .onNewConnection then [(0, .close)] else []]

/-- The loop asks an erased connection for its socket, and keeps one that was closed in
`onNewConnection`. -/
theorem erased_connection_used :
    (∃ σ, run Service.step (Service.start 3) leavingRun = some σ ∧ σ.erasedUsed = true) ∧
    ∃ σ, run Service.step (Service.start 3) refusingRun = some σ ∧
      σ.closed = [0] ∧ σ.connections.map (fun c => (c.id, c.valid)) = [(0, false)] := by
  refine ⟨?_, ?_⟩
  · have hrun : (run Service.step (Service.start 3) leavingRun).map (fun σ => σ.erasedUsed)
        = some true := by decide
    exact Option.map_eq_some_iff.mp hrun
  · have hrun : (run Service.step (Service.start 3) refusingRun).map (fun σ =>
        (σ.closed, σ.connections.map fun c => (c.id, c.valid))) = some ([0], [(0, false)]) := by
      decide
    obtain ⟨σ, hσ, hq⟩ := Option.map_eq_some_iff.mp hrun
    exact ⟨σ, hσ, (Prod.mk.inj hq).1, (Prod.mk.inj hq).2⟩

end Sphere.Net
