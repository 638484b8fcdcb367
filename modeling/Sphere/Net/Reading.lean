import Sphere.Net.Container

/-! One event, seen from the bytes it reads: what it makes of the connections and of the
log of callbacks. -/

namespace Sphere.Net

/-- The bytes that handling the event reads. -/
def took (ev : EpollEvent) (kernel : Kernel) : List UInt8 :=
  if ev.events.has EPOLLERR then []
  else if ev.events.has READ then
    match kernel.read with
    | .data buf => buf.1
    | .fail _ => []
  else []

/-- What has come over a connection. -/
def Client.came (c : Client) : ℕ × List UInt8 := (c.id, c.received)

namespace Client

theorem apply_received (c : Client) (a : Act) : (a.apply c).received = c.received := by
  cases a <;> rfl

theorem after_came (acts : List (ℕ × Act)) (c : Client) : (c.after acts).came = c.came := by
  induction acts generalizing c with
  | nil => rfl
  | cons a acts ih =>
    rw [after_cons, ih]
    split_ifs
    · exact Prod.ext (Act.apply_id c a.2) (apply_received c a.2)
    · rfl

/-- The option depends on the operations only. -/
theorem after_option_congr (acts : List (ℕ × Act)) {c d : Client} (hid : d.id = c.id)
    (ho : d.epollOption = c.epollOption) :
    (d.after acts).epollOption = (c.after acts).epollOption := by
  induction acts generalizing c d with
  | nil => exact ho
  | cons a acts ih =>
    rw [after_cons, after_cons, hid]
    split_ifs
    · refine ih ?_ ?_
      · rw [Act.apply_id, Act.apply_id, hid]
      · cases a.2 <;> simp [Act.apply, put, subscribe, unsubscribe, close, ho]
    · exact ih hid ho

end Client

namespace Service

variable {σ σ' σ'' : Service}

/-- The test for closing: the event carries `EPOLLRDHUP`, or the connection is left without
an option. -/
def Ended (ev : EpollEvent) (c : Client) (kernel : Kernel) (listener : Listener) : Prop :=
  (c.after (before ev c kernel listener)).epollOption = UNKNOWN ∨ ev.events.has CLOSE = true

instance (ev : EpollEvent) (c : Client) (kernel : Kernel) (listener : Listener) :
    Decidable (Ended ev c kernel listener) :=
  inferInstanceAs (Decidable (_ ∨ _))

/-- Calls and changes that read nothing: the log grows by `entries`. -/
structure Reports (σ : Service) (entries : List (Callback × Client)) (σ' : Service) : Prop where
  came : σ'.connections.map Client.came = σ.connections.map Client.came
  next : σ'.next = σ.next
  log : σ'.log = entries ++ σ.log

theorem Reports.refl (σ : Service) : Reports σ [] σ := ⟨rfl, rfl, rfl⟩

theorem Reports.trans {e e' : List (Callback × Client)} (h : Reports σ e σ')
    (h' : Reports σ' e' σ'') : Reports σ (e' ++ e) σ'' :=
  ⟨h'.came.trans h.came, h'.next.trans h.next, by rw [h'.log, h.log, List.append_assoc]⟩

theorem reports_call (listener : Listener) (cb : Callback) {k : ℕ} {c : Client}
    (hc : σ.conn k = some c) : Reports σ [(cb, c)] (σ.call listener cb k) := by
  unfold Service.call
  rw [hc]
  obtain ⟨hf, hlog, hmap⟩ := foldl_act (listener cb) { σ with log := (cb, c) :: σ.log }
  refine ⟨?_, hf.next, hlog⟩
  rw [hmap, List.map_map]
  exact List.map_congr_left fun d _ => Client.after_came _ d

theorem reports_modify (k : ℕ) {f : Client → Client}
    (hf : ∀ c ∈ σ.connections, c.id = k → (f c).came = c.came) :
    Reports σ [] (σ.modify k f) := by
  refine ⟨?_, rfl, rfl⟩
  change (σ.connections.map fun c => if c.id = k then f c else c).map Client.came = _
  rw [List.map_map]
  refine List.map_congr_left fun c hc => ?_
  dsimp only [Function.comp]
  split_ifs with hk
  · exact hf c hc hk
  · rfl

theorem reports_act (a : ℕ × Act) : Reports σ [] (σ.act a) := by
  have hm : Reports σ [] (σ.modify a.1 fun c => a.2.apply c) :=
    reports_modify a.1 fun c _ _ => Prod.ext (Act.apply_id c a.2) (Client.apply_received c a.2)
  unfold Service.act
  split_ifs
  · exact ⟨hm.came, hm.next, hm.log⟩
  · exact hm

theorem reports_throw (e : Exception) : Reports σ [] (σ.throw e) := ⟨rfl, rfl, rfl⟩

theorem reports_rearm (k : ℕ) (kernel : Kernel) : Reports σ [] (σ.rearm k kernel) := by
  unfold Service.rearm
  split
  · split_ifs <;> exact ⟨rfl, rfl, rfl⟩
  · split_ifs
    · unfold epollMod
      split_ifs
      · exact reports_modify k fun c _ _ => rfl
      · exact reports_throw _
    · exact .refl σ

theorem call_conn {listener : Listener} {cb : Callback} {k : ℕ} {c : Client}
    (hc : σ.conn k = some c) :
    (σ.call listener cb k).conn k = some (c.after (listener cb)) := by
  unfold Service.call
  rw [hc]
  obtain ⟨-, -, hmap⟩ := foldl_act (listener cb) { σ with log := (cb, c) :: σ.log }
  have hconn := conn_map (k := k) (fun e => Client.after_id (listener cb) e) hmap
  change _ = (σ.conn k).map _ at hconn
  rw [hconn, hc]
  rfl

/-- An event of `c` reads `data`, and the log grows by entries that report it and of which
none is an `onClose`; `c` is left with the option that the listener has given it. -/
structure Dispatched (σ : Service) (c : Client) (data : List UInt8) (acts : List (ℕ × Act))
    (s : Service) : Prop where
  came : ∀ d' ∈ s.connections, ∃ d ∈ σ.connections,
    d'.came = if d.id = c.id then (c.id, c.received ++ data) else d.came
  next : s.next = σ.next
  conn : ∃ d, s.conn c.id = some d ∧ d.came = (c.id, c.received ++ data) ∧
    d.epollOption = (c.after acts).epollOption
  log : ∃ entries, s.log = entries ++ σ.log ∧ (∀ x ∈ entries, x.1 ≠ .onClose) ∧
    (data ≠ [] → ∃ d, (.onReadAvailable, d) ∈ entries ∧ d.came = (c.id, c.received ++ data))

/-- The connection is replaced by `c'`, which has read `data`. -/
theorem dispatched_none (h : σ.Numbered) {c c' : Client} {data : List UInt8}
    (hc : c ∈ σ.connections) (hcame : c'.came = (c.id, c.received ++ data))
    (ho : c'.epollOption = c.epollOption) (hdata : data = []) :
    Dispatched σ c data [] (σ.modify c.id fun _ => c') := by
  refine ⟨fun d' hd' => ?_, rfl, ⟨c', h.conn_replace hc (congrArg Prod.fst hcame), hcame, ho⟩,
    [], rfl, nofun, fun hne => absurd hdata hne⟩
  obtain ⟨d, hd, rfl⟩ := List.mem_map.mp hd'
  refine ⟨d, hd, ?_⟩
  split_ifs
  · exact hcame
  · rfl

theorem dispatched_call (h : σ.Numbered) {c c' : Client} {data : List UInt8}
    (hc : c ∈ σ.connections) (hcame : c'.came = (c.id, c.received ++ data))
    (ho : c'.epollOption = c.epollOption) {cb : Callback} (listener : Listener)
    (hcb : cb ≠ .onClose) (hdata : data ≠ [] → cb = .onReadAvailable) :
    Dispatched σ c data (listener cb) ((σ.modify c.id fun _ => c').call listener cb c.id) := by
  have hid : c'.id = c.id := congrArg Prod.fst hcame
  have hconn := h.conn_replace hc hid
  have hr := reports_call listener cb hconn
  refine ⟨fun d' hd' => ?_, hr.next, ⟨_, call_conn hconn, ?_, ?_⟩, [(cb, c')], hr.log, ?_,
    fun hne => ⟨c', ?_, hcame⟩⟩
  · have hmem := List.mem_map_of_mem (f := Client.came) hd'
    rw [hr.came] at hmem
    obtain ⟨d₁, hd₁, heq⟩ := List.mem_map.mp hmem
    obtain ⟨d, hd, rfl⟩ := List.mem_map.mp hd₁
    refine ⟨d, hd, heq ▸ ?_⟩
    split_ifs
    · exact hcame
    · rfl
  · rw [Client.after_came, hcame]
  · exact Client.after_option_congr _ hid ho
  · intro x hx
    obtain rfl := List.mem_singleton.mp hx
    exact hcb
  · rw [hdata hne]
    exact List.mem_singleton_self _

/-- A replacement by itself. -/
theorem modify_self (h : σ.Numbered) {c : Client} (hc : c ∈ σ.connections) :
    (σ.modify c.id fun _ => c) = σ := by
  have hmap : (σ.connections.map fun d => if d.id = c.id then c else d) = σ.connections := by
    refine (List.map_congr_left fun d hd => ?_).trans (List.map_id _)
    split_ifs with hid
    · exact List.inj_on_of_nodup_map h.nodup hc hd hid.symm
    · rfl
  unfold Service.modify
  rw [hmap]

theorem dispatch_dispatched (h : σ.Numbered) (ev : EpollEvent) {c : Client} (kernel : Kernel)
    (listener : Listener) (hc : c ∈ σ.connections) (hv : c.valid = true) :
    (fails ev c kernel = true ∧ ∃ e, σ.dispatch ev c kernel listener = .error e) ∨
    (fails ev c kernel = false ∧ ∃ s, σ.dispatch ev c kernel listener = .ok s ∧
      Dispatched σ c (took ev kernel) (before ev c kernel listener) s) := by
  have hself := modify_self h hc
  have hcame : c.came = (c.id, c.received ++ []) := by simp [Client.came]
  have hcall : ∀ cb, cb ≠ .onClose → Dispatched σ c [] (listener cb)
      (σ.call listener cb c.id) := by
    intro cb hcb
    have hd := dispatched_call h hc hcame rfl listener hcb (fun hne => absurd rfl hne)
    rwa [hself] at hd
  unfold fails before invoked took Service.dispatch
  split_ifs with herr hin hout hbuf
  · exact .inr ⟨rfl, _, rfl, hcall _ (by simp)⟩
  · cases hr : kernel.read with
    | fail errno =>
      refine .inl ⟨rfl, ?_⟩
      simp [Client.readToBuffer, BufferedConnection.readToBuffer, hv]
    | data buf =>
      let c' : Client := { c with read := c.read ++ buf.1, received := c.received ++ buf.1 }
      have hread : c.readToBuffer (.data buf) = .ok (buf.1.length, c') := by
        simp [Client.readToBuffer, BufferedConnection.readToBuffer, hv, c']
      have hcame' : c'.came = (c.id, c.received ++ buf.1) := rfl
      rw [hread]
      refine .inr ⟨rfl, _, rfl, dispatched_call h hc hcame' rfl listener ?_ fun hne => ?_⟩
      · split_ifs <;> simp
      · rw [if_neg]
        rwa [List.length_eq_zero_iff]
  · cases hw : kernel.write with
    | fail errno =>
      refine .inl ⟨by simp [hbuf], ?_⟩
      simp [Client.writeFromBuffer, BufferedConnection.writeFromBuffer, hv]
    | wrote size =>
      let c' : Client := { c with write := c.write.drop size, sent := c.sent ++ c.write.take size }
      have hwrite : c.writeFromBuffer (.wrote size) = .ok (min size c.write.length, c') := by
        simp [Client.writeFromBuffer, BufferedConnection.writeFromBuffer, hv, c']
      have hcame' : c'.came = (c.id, c.received ++ []) := hcame
      rw [hwrite]
      refine .inr ⟨by simp, _, rfl, ?_⟩
      dsimp only
      split_ifs with hsize
      · exact dispatched_call h hc hcame' rfl listener (by simp) fun hne => absurd rfl hne
      · exact dispatched_none h hc hcame' rfl rfl
  · exact .inr ⟨by simp [hbuf], _, rfl, hcall _ (by simp)⟩
  · refine .inr ⟨rfl, σ, rfl, ?_⟩
    have hd := dispatched_none h hc hcame rfl rfl
    rwa [hself] at hd

/-- What an event of `c` makes of the connections and the log: it is thrown out of `run`, or
the bytes it reads are reported and, at the end of the connection, `onClose` is called. -/
structure HandledBy (σ : Service) (ev : EpollEvent) (c : Client) (kernel : Kernel)
    (listener : Listener) (σ' : Service) : Prop where
  came : ∀ d' ∈ σ'.connections, ∃ d ∈ σ.connections,
    d'.came = if d.id = c.id then (c.id, c.received ++ took ev kernel) else d.came
  next : σ'.next = σ.next
  log : ∃ entries, (∀ x ∈ entries, x.1 ≠ .onClose) ∧
    (took ev kernel ≠ [] → ∃ d, (.onReadAvailable, d) ∈ entries ∧
      d.came = (c.id, c.received ++ took ev kernel)) ∧
    (¬ Ended ev c kernel listener → σ'.log = entries ++ σ.log) ∧
    (Ended ev c kernel listener → ∃ d, d.came = (c.id, c.received ++ took ev kernel) ∧
      σ'.log = (.onClose, d) :: (entries ++ σ.log))

theorem handleClient_handled (h : σ.Numbered) (ev : EpollEvent) {c : Client} (kernel : Kernel)
    (listener : Listener) (hc : c ∈ σ.connections) (hv : c.valid = true) :
    (fails ev c kernel = true ∧ Reports σ [] (σ.handleClient ev c kernel listener)) ∨
    (fails ev c kernel = false ∧
      HandledBy σ ev c kernel listener (σ.handleClient ev c kernel listener)) := by
  obtain ⟨hfail, e, hd⟩ | ⟨hfail, s, hd, hs⟩ := dispatch_dispatched h ev kernel listener hc hv
  · refine .inl ⟨hfail, ?_⟩
    simp only [Service.handleClient, hd]
    exact reports_throw _
  refine .inr ⟨hfail, ?_⟩
  obtain ⟨d, hconn, hcame, hopt⟩ := hs.conn
  obtain ⟨entries, hlog, hopen, htells⟩ := hs.log
  have hends : s.ends ev c.id = true ↔ Ended ev c kernel listener := by
    rw [ends_iff hconn, hopt]
    rfl
  -- whatever comes after the dispatch reads nothing
  have hback : ∀ s' : Service, (∀ d' ∈ s'.connections, ∃ d ∈ s.connections, d'.came = d.came) →
      ∀ d' ∈ s'.connections, ∃ d ∈ σ.connections,
        d'.came = if d.id = c.id then (c.id, c.received ++ took ev kernel) else d.came := by
    intro s' hs' d' hd'
    obtain ⟨d₁, hd₁, heq⟩ := hs' d' hd'
    obtain ⟨d, hd, heq'⟩ := hs.came d₁ hd₁
    exact ⟨d, hd, heq.trans heq'⟩
  have hreports : ∀ {s' : Service} {e : List (Callback × Client)}, Reports s e s' →
      ∀ d' ∈ s'.connections, ∃ d ∈ s.connections, d'.came = d.came := by
    intro s' e hr d' hd'
    have hmem := List.mem_map_of_mem (f := Client.came) hd'
    rw [hr.came] at hmem
    obtain ⟨d, hd, heq⟩ := List.mem_map.mp hmem
    exact ⟨d, hd, heq.symm⟩
  by_cases hend : s.ends ev c.id = true
  · have hr := (reports_call listener .onClose hconn).trans (reports_act (c.id, .close))
    let t := (s.call listener .onClose c.id).act (c.id, .close)
    have hrearm := reports_rearm (σ := t.erase c.id) c.id kernel
    have hσ' : σ.handleClient ev c kernel listener = (t.erase c.id).rearm c.id kernel := by
      simp only [Service.handleClient, hd, hend, if_true, t]
    rw [hσ']
    refine ⟨hback _ fun d' hd' => ?_, ?_, entries, hopen, htells,
      fun hno => absurd (hends.mp hend) hno, fun _ => ⟨d, hcame, ?_⟩⟩
    · have hmem := List.mem_map_of_mem (f := Client.came) hd'
      rw [hrearm.came] at hmem
      obtain ⟨d₁, hd₁, heq⟩ := List.mem_map.mp hmem
      obtain ⟨d, hd, heq'⟩ := hreports hr d₁ (List.mem_of_mem_filter hd₁)
      exact ⟨d, hd, heq.symm.trans heq'⟩
    · exact hrearm.next.trans (hr.next.trans hs.next)
    · rw [hrearm.log, List.nil_append]
      change t.log = _
      rw [hr.log, hlog]
      rfl
  · have hr := reports_rearm (σ := s) c.id kernel
    have hσ' : σ.handleClient ev c kernel listener = s.rearm c.id kernel := by
      simp only [Service.handleClient, hd, hend, if_false, Bool.false_eq_true]
    rw [hσ']
    refine ⟨hback _ (hreports hr), hr.next.trans hs.next, entries, hopen, htells, fun _ => ?_,
      fun hyes => absurd (hends.mpr hyes) hend⟩
    rw [hr.log, List.nil_append, hlog]

/-- A new connection, over which nothing has come. -/
theorem handleServer_reports (kernel : Kernel) (listener : Listener) :
    Reports σ [] (σ.handleServer kernel listener) ∨
      ∃ entries fd, kernel.accept = .ok fd ∧ (∀ x ∈ entries, x.1 ≠ .onClose) ∧
        Reports (σ.emplace fd) entries (σ.handleServer kernel listener) := by
  unfold Service.handleServer
  cases hacc : kernel.accept with
  | error errno => exact .inl (reports_throw _)
  | ok fd =>
    dsimp only
    split_ifs
    · let t := (σ.emplace fd).modify σ.next fun c => { c with watch := .armed CLOSE }
      have hwatch : Reports (σ.emplace fd) [] t := reports_modify σ.next fun _ _ _ => rfl
      have hmem : σ.next ∈ t.connections.map (·.id) := by
        have hids := congrArg (List.map Prod.fst) hwatch.came
        simp only [List.map_map, Function.comp_def, Client.came] at hids
        rw [hids]
        simp [Service.emplace, Client.make]
      obtain ⟨d, hd⟩ := Option.isSome_iff_exists.mp (conn_isSome_iff.mpr hmem)
      have hcall := (hwatch.trans (reports_call listener .onNewConnection hd)).trans
        (reports_rearm σ.next kernel)
      refine .inr ⟨_, fd, rfl, fun x hx => ?_, hcall⟩
      obtain rfl := List.mem_singleton.mp hx
      simp
    · exact .inr ⟨[], fd, rfl, by simp, reports_throw _⟩

/-- A closed connection has no descriptor and is not watched. -/
def Socketed (c : Client) : Prop :=
  c.valid = true ∧ 0 ≤ c.fd ∨ c.valid = false ∧ c.fd = -1 ∧ c.watch = .absent

theorem socketed_apply {c : Client} (h : Socketed c) (a : Act) : Socketed (a.apply c) := by
  cases a with
  | close => exact .inr ⟨rfl, rfl, rfl⟩
  | _ => exact h

theorem socketed_after {c : Client} (h : Socketed c) (acts : List (ℕ × Act)) :
    Socketed (c.after acts) := by
  induction acts generalizing c with
  | nil => exact h
  | cons a acts ih =>
    rw [Client.after_cons]
    split_ifs
    · exact ih (socketed_apply h a.2)
    · exact ih h

theorem socketed_moves {c c' : Client} (h : Socketed c) (hm : c.Moves c') : Socketed c' := by
  obtain ⟨r, size, hr⟩ | ⟨r, size, hr⟩ := hm
  · obtain ⟨buf, -, -, -, rfl⟩ := Client.readToBuffer_ok hr
    exact h
  · obtain ⟨n, -, -, -, rfl⟩ := Client.writeFromBuffer_ok hr
    exact h

/-- And an event names the server, or a descriptor that was watched. -/
structure Sockets (σ : Service) : Prop where
  connections : ∀ c ∈ σ.connections, Socketed c
  batch : ∀ ev ∈ σ.batch, ev.fd = σ.server ∨ 0 ≤ ev.fd

theorem Sockets.map (h : σ.Sockets) {f : Client → Client}
    (hf : ∀ c ∈ σ.connections, Socketed (f c)) (hc : σ'.connections = σ.connections.map f)
    (hs : σ'.server = σ.server) (hb : σ'.batch = σ.batch) : σ'.Sockets := by
  refine ⟨fun c hcm => ?_, fun ev hev => ?_⟩
  · rw [hc] at hcm
    obtain ⟨d, hd, rfl⟩ := List.mem_map.mp hcm
    exact hf d hd
  · rw [hs]
    exact h.batch ev (hb ▸ hev)

theorem Sockets.modify (h : σ.Sockets) (k : ℕ) {f : Client → Client}
    (hf : ∀ c ∈ σ.connections, c.id = k → Socketed (f c)) : (σ.modify k f).Sockets := by
  refine h.map (f := fun c => if c.id = k then f c else c) (fun c hc => ?_) rfl rfl rfl
  split_ifs with hk
  · exact hf c hc hk
  · exact h.connections c hc

theorem Sockets.call (h : σ.Sockets) (listener : Listener) (cb : Callback) (k : ℕ) :
    (σ.call listener cb k).Sockets := by
  unfold Service.call
  split
  · exact h
  · next c _ =>
    obtain ⟨hf, -, hc⟩ := foldl_act (listener cb) { σ with log := (cb, c) :: σ.log }
    exact h.map (fun d hd => socketed_after (h.connections d hd) _) hc hf.server hf.batch

theorem Sockets.act (h : σ.Sockets) (a : ℕ × Act) : (σ.act a).Sockets := by
  have hm := h.modify (f := fun c => a.2.apply c) a.1
    fun c hc _ => socketed_apply (h.connections c hc) a.2
  unfold Service.act
  split_ifs
  · exact ⟨hm.connections, hm.batch⟩
  · exact hm

theorem Sockets.throw (h : σ.Sockets) (e : Exception) : (σ.throw e).Sockets :=
  ⟨h.connections, nofun⟩

theorem Sockets.erase (h : σ.Sockets) (k : ℕ) : (σ.erase k).Sockets :=
  ⟨fun c hc => h.connections c (List.mem_of_mem_filter hc), h.batch⟩

theorem Sockets.emplace (h : σ.Sockets) {fd : ℤ} (hfd : 0 ≤ fd) : (σ.emplace fd).Sockets := by
  refine ⟨fun c hc => ?_, h.batch⟩
  obtain hc | hc := List.mem_append.mp hc
  · exact h.connections c hc
  · obtain rfl := List.mem_singleton.mp hc
    exact .inl ⟨rfl, hfd⟩

/-- A valid socket is watched again. -/
theorem Sockets.rearm (h : σ.Sockets) (hn : σ.Numbered) (k : ℕ) (kernel : Kernel) :
    (σ.rearm k kernel).Sockets := by
  have hused : ({ σ with erasedUsed := true } : Service).Sockets := ⟨h.connections, h.batch⟩
  unfold Service.rearm
  split
  · split_ifs
    · exact hused.throw _
    · exact hused
  · next c hc =>
    split_ifs with hv
    · unfold epollMod
      split_ifs
      · refine h.modify k fun d hd hid => .inl ?_
        obtain rfl : d = c := Option.some.inj ((hn.conn hd).symm.trans (hid ▸ hc))
        obtain hd' | ⟨hno, -⟩ := h.connections d hd
        · exact hd'
        · rw [hno] at hv
          cases hv
      · exact h.throw _
    · exact h

theorem Sockets.handleServer (h : σ.Sockets) (hk : σ.Kept) {kernel : Kernel}
    (listener : Listener) (hadm : σ.Admits kernel) :
    (σ.handleServer kernel listener).Sockets := by
  unfold Service.handleServer
  unfold Admits at hadm
  cases hacc : kernel.accept with
  | error errno => exact h.throw _
  | ok fd =>
    rw [hacc] at hadm
    have hnew := h.emplace hadm.1
    have hkept := hk.emplace fd
    dsimp only
    split_ifs
    · refine Sockets.rearm (Sockets.call (hnew.modify σ.next fun c hc hid => ?_) _ _ _)
        (Kept.toNumbered ?_) _ kernel
      · obtain hc | hc := List.mem_append.mp hc
        · exact absurd hid (hk.lt c hc).ne
        · obtain rfl := List.mem_singleton.mp hc
          exact .inl ⟨rfl, hadm.1⟩
      · have hwatched := hkept.modify (f := fun c => { c with watch := .armed CLOSE }) σ.next
          fun c hc _ => ⟨rfl, hkept.connections c hc⟩
        exact hwatched.call listener _ _ fun hcb => by cases hcb
    · exact hnew.throw _

theorem Sockets.dispatch (h : σ.Sockets) {ev : EpollEvent} {c : Client} {kernel : Kernel}
    {listener : Listener} (hc : Socketed c) (hd : σ.dispatch ev c kernel listener = .ok σ') :
    σ'.Sockets := by
  have hown : ∀ c' : Client, c.Moves c' → (σ.modify c.id fun _ => c').Sockets :=
    fun c' hm => h.modify _ fun _ _ _ => socketed_moves hc hm
  obtain ⟨cb, -, rfl⟩ | ⟨c', cb, hm, -, rfl⟩ | ⟨c', hm, rfl⟩ | rfl := dispatch_cases hd
  · exact h.call _ _ _
  · exact (hown c' hm).call _ _ _
  · exact hown c' hm
  · exact h

/-- The event to be handled is that of a connection whose socket is open. -/
theorem Sockets.valid (h : σ.Sockets) {ev : EpollEvent} {rest : List EpollEvent} {c : Client}
    (hbatch : σ.batch = ev :: rest) (hserver : ev.fd ≠ σ.server)
    (hfind : (σ.connections.find? fun c => c.fd = ev.fd) = some c) :
    c ∈ σ.connections ∧ c.valid = true := by
  have hc := List.mem_of_find?_eq_some hfind
  have hfd : c.fd = ev.fd := by simpa using List.find?_some hfind
  refine ⟨hc, ?_⟩
  obtain ⟨hv, -⟩ | ⟨-, hneg, -⟩ := h.connections c hc
  · exact hv
  · have hpos := (h.batch ev (hbatch ▸ List.mem_cons_self)).resolve_left hserver
    omega

theorem Sockets.handle (h : σ.Sockets) (hk : σ.Kept) (ev : EpollEvent) {kernel : Kernel}
    (listener : Listener) (hadm : σ.Admits kernel) : (σ.handle ev kernel listener).Sockets := by
  unfold Service.handle
  split_ifs
  · exact h.handleServer hk listener hadm
  · split
    · exact ⟨h.connections, nofun⟩
    · next c hfind =>
      have hc := List.mem_of_find?_eq_some hfind
      unfold Service.handleClient
      split
      · exact h.throw _
      · next s hd =>
        have hs := h.dispatch (h.connections c hc) hd
        have hks := hk.dispatch hc hd
        split_ifs
        · refine (((hs.call listener _ _).act _).erase _).rearm (Kept.toNumbered ?_) _ kernel
          exact ((hks.call listener _ _ fun hcb => by cases hcb).act _).erase _
        · exact hs.rearm hks.toNumbered _ kernel

theorem Sockets.step {a : Input} (h : σ.Sockets) (hk : σ.Kept) (hstep : σ.step a = some σ') :
    σ'.Sockets := by
  cases a with
  | wait events =>
    obtain ⟨⟨-, -, hev, -⟩, hstep⟩ := Option.ite_none_right_eq_some.mp hstep
    obtain rfl := Option.some.inj hstep
    refine ⟨h.connections, fun ev hm => ?_⟩
    obtain hsrv | ⟨c, hc, hw, hfd⟩ := hev ev hm
    · exact .inl hsrv
    · obtain ⟨-, hpos⟩ | ⟨-, -, habs⟩ := h.connections c hc
      · exact .inr (hfd ▸ hpos)
      · exact absurd habs hw
  | handle kernel listener =>
    obtain ⟨ev, rest, hbatch, hadm, rfl⟩ := step_handle hstep
    refine Sockets.handle ?_ ?_ ev listener hadm
    · exact ⟨h.connections, fun e he => h.batch e (hbatch ▸ List.mem_cons_of_mem _ he)⟩
    · exact ⟨⟨hk.nodup, hk.lt⟩, hk.connections, hk.erased, hk.log⟩

/-- The event to be handled and the connection that `find_if` finds for it. -/
def turn (σ : Service) : Option (EpollEvent × Client) :=
  match σ.batch with
  | [] => none
  | ev :: _ =>
    if ev.fd = σ.server then none
    else (σ.connections.find? fun c => c.fd = ev.fd).map fun c => (ev, c)

theorem turn_eq {ev : EpollEvent} {rest : List EpollEvent} (h : σ.batch = ev :: rest) :
    σ.turn = if ev.fd = σ.server then none
      else (σ.connections.find? fun c => c.fd = ev.fd).map fun c => (ev, c) := by
  unfold turn
  rw [h]

end Service

end Sphere.Net
