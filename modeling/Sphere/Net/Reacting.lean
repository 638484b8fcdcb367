import Sphere.Net.Reading

/-! A listener whose callbacks operate on the connection they are called with only, and do not
close it. Each of its connections then goes on as if the service had no other one. -/

namespace Sphere.Net

open Lib.Transition

/-- What a listener does in a callback, with the connection it is called for. -/
def React := Callback → Client → List Act

/-- READ and WRITE are bits of their own. -/
theorem OPTION.has_bit {flag : OPTION} (h : flag ∈ [READ, WRITE]) :
    ∃ i, (∀ o : OPTION, o.has flag = o.bits.getLsbD i) ∧ CLOSE.bits.getLsbD i = false := by
  have hbit : ∀ i, i < 32 → flag.bits = BitVec.twoPow 32 i →
      ∀ o : OPTION, o.has flag = o.bits.getLsbD i := by
    intro i hi hflag o
    unfold has
    rw [hflag, BitVec.and_twoPow]
    cases o.bits.getLsbD i with
    | false => simp
    | true =>
      have hne : BitVec.twoPow 32 i ≠ 0 := fun hz => by
        have hi' := congrArg (·.getLsbD i) hz
        simp [hi] at hi'
      simpa using hne
  rcases List.mem_pair.mp h with rfl | rfl
  · exact ⟨0, hbit 0 (by decide) rfl, rfl⟩
  · exact ⟨2, hbit 2 (by decide) rfl, rfl⟩

/-- epoll was told to report this. -/
def Watch.wants : Watch → OPTION → Bool
  | .armed opt, flag => opt.has flag
  | _, _ => false

/-- No callback closes the connection. -/
def React.Open (react : React) : Prop := ∀ cb c, Act.close ∉ react cb c

namespace Client

def does (c : Client) (acts : List Act) : Client := acts.foldl Act.apply c

/-- The bytes of one `read_to_buffer`. -/
def got (c : Client) (data : List UInt8) : Client :=
  { c with read := c.read ++ data, received := c.received ++ data }

/-- The bytes of one `write_from_buffer`. -/
def took (c : Client) (size : ℕ) : Client :=
  { c with write := c.write.drop size, sent := c.sent ++ c.write.take size }

/-- `EPOLL_CTL_ADD` and `EPOLL_CTL_MOD` -/
def watched (c : Client) (w : Watch) : Client := { c with watch := w }

variable {c : Client}

theorem subscribe_has {flag : OPTION} (h : flag ∈ [READ, WRITE]) (opt : OPTION) :
    (c.subscribe opt).epollOption.has flag = (c.epollOption.has flag || opt.has flag) := by
  obtain ⟨i, hbit, hclose⟩ := OPTION.has_bit h
  rw [hbit, hbit, hbit]
  change ((c.epollOption.bits ||| opt.bits) ||| CLOSE.bits).getLsbD i = _
  rw [BitVec.getLsbD_or, BitVec.getLsbD_or, hclose, Bool.or_false]

theorem unsubscribe_has {flag : OPTION} (h : flag ∈ [READ, WRITE]) (opt : OPTION) :
    (c.unsubscribe opt).epollOption.has flag = (c.epollOption.has flag && !opt.has flag) := by
  obtain ⟨i, hbit, hclose⟩ := OPTION.has_bit h
  rw [hbit, hbit, hbit]
  change ((c.epollOption.bits &&& ~~~opt.bits) ||| CLOSE.bits).getLsbD i = _
  rw [BitVec.getLsbD_or, BitVec.getLsbD_and, BitVec.getLsbD_not, hclose, Bool.or_false]
  cases hc : c.epollOption.bits.getLsbD i with
  | false => rfl
  | true => simp [BitVec.lt_of_getLsbD hc]

theorem after_own (acts : List Act) : c.after (acts.map (c.id, ·)) = c.does acts := by
  have h : ∀ d : Client, d.id = c.id → d.after (acts.map (c.id, ·)) = d.does acts := by
    induction acts with
    | nil => exact fun _ _ => rfl
    | cons a acts ih =>
      intro d hd
      rw [List.map_cons, after_cons, if_pos hd]
      exact ih _ ((Act.apply_id d a).trans hd)
  exact h c rfl

theorem after_other {k : ℕ} (hk : c.id ≠ k) (acts : List Act) :
    c.after (acts.map (k, ·)) = c := by
  induction acts with
  | nil => rfl
  | cons a acts ih => rw [List.map_cons, after_cons, if_neg hk, ih]

theorem does_key {acts : List Act} (h : Act.close ∉ acts) : (c.does acts).key = c.key := by
  rw [← after_own]
  refine after_key c fun a ha _ => ?_
  obtain ⟨b, hb, rfl⟩ := List.mem_map.mp ha
  rintro rfl
  exact h hb

end Client

/-- A run of one connection, with the callbacks made for it, the last one first: what the
service may do to it depends on the connection alone. Reading takes at least a byte. -/
inductive Alone (react : React) : List (Callback × Client) → Client → Prop
  | accept (id : ℕ) (fd : ℤ) : Alone react [] (.make id fd)
  | watch {calls c} (w : Watch) (h : Alone react calls c) : Alone react calls (c.watched w)
  | onNewConnection {c} (h : Alone react [] c) :
      Alone react [(.onNewConnection, c)] (c.does (react .onNewConnection c))
  | onReadAvailable {calls c} (data : List UInt8) (h : Alone react calls c)
      (hread : c.epollOption.has READ) (hdata : data ≠ []) :
      Alone react ((.onReadAvailable, c.got data) :: calls)
        ((c.got data).does (react .onReadAvailable (c.got data)))
  | onError {calls c} (h : Alone react calls c) :
      Alone react ((.onError, c) :: calls) (c.does (react .onError c))
  | write {calls c} (size : ℕ) (h : Alone react calls c) (hwrite : c.epollOption.has WRITE) :
      Alone react calls (c.took size)
  | onWriteDone {calls c} (h : Alone react calls c) (hwrite : c.epollOption.has WRITE)
      (hempty : c.write = []) :
      Alone react ((.onWriteDone, c) :: calls) (c.does (react .onWriteDone c))
  | onClose {calls c} (h : Alone react calls c) :
      Alone react ((.onClose, c) :: calls) (c.does (react .onClose c)).close

/-- What was written is sent in order, and what has come is read. -/
theorem Alone.delivered {react : React} {calls : List (Callback × Client)} {c : Client}
    (h : Alone react calls c) : c.Delivered := by
  have hdoes : ∀ {d : Client} (acts : List Act), d.Delivered → (d.does acts).Delivered := by
    intro d acts hd
    rw [← Client.after_own]
    exact hd.after _
  induction h with
  | accept id fd => exact Client.delivered_make id fd
  | watch w h ih => exact ih
  | onNewConnection h ih => exact hdoes _ ih
  | onReadAvailable data h hread hdata ih =>
    exact hdoes _ ⟨ih.1, congrArg (· ++ data) ih.2⟩
  | onError h ih => exact hdoes _ ih
  | @write calls c size h hwrite ih =>
    refine ⟨?_, ih.2⟩
    change (c.sent ++ c.write.take size) ++ c.write.drop size = c.written
    rw [List.append_assoc, List.take_append_drop, ih.1]
  | onWriteDone h hwrite hempty ih => exact hdoes _ ih
  | onClose h ih => exact (hdoes _ ih).apply .close

namespace Service

variable {σ σ' : Service} {react : React}

/-- The callbacks made for a connection. -/
def calls (σ : Service) (k : ℕ) : List (Callback × Client) := σ.log.filter (·.2.id = k)

/-- In these callbacks the listener does what it does with the connections they found. -/
def Fits (react : React) (listener : Listener) (entries : List (Callback × Client)) : Prop :=
  ∀ x ∈ entries, listener x.1 = (react x.1 x.2).map (x.2.id, ·)

instance (react : React) (listener : Listener) (entries : List (Callback × Client)) :
    Decidable (Fits react listener entries) :=
  inferInstanceAs (Decidable (∀ x ∈ entries, _))

/-- The callbacks of the event are the listener's. -/
def Obeys (react : React) (σ : Service) : Input → Prop
  | .wait _ => True
  | .handle kernel listener => ∀ σ' ∈ σ.step (.handle kernel listener),
      Fits react listener (σ'.log.take (σ'.log.length - σ.log.length))

/-- epoll reports that a connection is ready for what it was told to watch it for. -/
def Reported (σ : Service) : Input → Prop
  | .wait events => ∀ ev ∈ events, ∀ c ∈ σ.connections, c.fd = ev.fd →
      ∀ flag ∈ [READ, WRITE], ev.events.has flag → c.watch.wants flag
  | .handle .. => True

/-- A step of a program that ends with the first exception, or starts a new service. -/
def Served (react : React) (σ : Service) (a : Input) : Prop :=
  σ.exception = none ∧ σ.Reported a ∧ σ.Obeys react a

instance (react : React) (σ : Service) : ∀ a : Input, Decidable (σ.Obeys react a)
  | .wait _ => .isTrue trivial
  | .handle kernel listener => inferInstanceAs (Decidable (∀ σ' ∈ σ.step (.handle kernel listener),
      Fits react listener (σ'.log.take (σ'.log.length - σ.log.length))))

instance (σ : Service) : ∀ a : Input, Decidable (σ.Reported a)
  | .wait events => inferInstanceAs (Decidable (∀ ev ∈ events, ∀ c ∈ σ.connections, c.fd = ev.fd →
      ∀ flag ∈ [READ, WRITE], ev.events.has flag → c.watch.wants flag))
  | .handle .. => .isTrue trivial

instance (react : React) (σ : Service) (a : Input) : Decidable (σ.Served react a) :=
  inferInstanceAs (Decidable (_ ∧ _ ∧ _))

/-! One connection is replaced, and callbacks are logged. -/

def turned (σ : Service) (c : Client) (entries : List (Callback × Client)) : Service :=
  { σ.modify c.id fun _ => c with log := entries ++ σ.log }

theorem modify_turned {c : Client} {f : Client → Client} (hid : (f c).id = c.id)
    (e : List (Callback × Client)) : (σ.turned c e).modify c.id f = σ.turned (f c) e := by
  simp only [turned, modify, Service.mk.injEq, List.map_map, and_true, true_and]
  refine List.map_congr_left fun d _ => ?_
  dsimp only [Function.comp]
  rw [hid]
  by_cases hd : d.id = c.id
  · simp only [if_pos hd, if_true]
  · simp only [if_neg hd]

theorem turned_turned {c c' : Client} (hid : c'.id = c.id) (e e' : List (Callback × Client)) :
    (σ.turned c e).turned c' e' = σ.turned c' (e' ++ e) := by
  have h := modify_turned (σ := σ) (f := fun _ => c') hid e
  unfold turned at h ⊢
  rw [hid, h, hid, List.append_assoc]

theorem Numbered.turned (h : σ.Numbered) {c c' : Client} (hc : c ∈ σ.connections)
    (hid : c'.id = c.id) (e : List (Callback × Client)) :
    (σ.turned c' e).Numbered ∧ c' ∈ (σ.turned c' e).connections := by
  refine ⟨h.map (f := fun d => if d.id = c'.id then c' else d) (fun d _ => ?_) rfl rfl,
    List.mem_map.mpr ⟨c, hc, if_pos hid.symm⟩⟩
  split_ifs with hd
  · exact hd.symm
  · rfl

theorem mem_turned {c d : Client} {e : List (Callback × Client)}
    (hd : d ∈ (σ.turned c e).connections) : d = c ∨ d ∈ σ.connections ∧ d.id ≠ c.id := by
  obtain ⟨d', hd', rfl⟩ := List.mem_map.mp hd
  by_cases hid : d'.id = c.id
  · exact .inl (if_pos hid)
  · dsimp only
    rw [if_neg hid]
    exact .inr ⟨hd', hid⟩

theorem turned_mem {c d : Client} (hd : d ∈ σ.connections) (hid : d.id ≠ c.id)
    (e : List (Callback × Client)) : d ∈ (σ.turned c e).connections :=
  List.mem_map.mpr ⟨d, hd, if_neg hid⟩

theorem turned_self (h : σ.Numbered) {c : Client} (hc : c ∈ σ.connections) :
    σ.turned c [] = σ := by
  unfold turned
  rw [modify_self h hc]
  rfl

theorem call_turned (h : σ.Numbered) (hopen : react.Open) {c : Client} (hc : c ∈ σ.connections)
    {listener : Listener} {cb : Callback}
    (hl : listener cb = (react cb c).map (c.id, ·)) :
    σ.call listener cb c.id = σ.turned (c.does (react cb c)) [(cb, c)] := by
  have hid : (c.does (react cb c)).id = c.id := congrArg Prod.fst (Client.does_key (hopen cb c))
  let s : Service := { σ with log := (cb, c) :: σ.log }
  obtain ⟨hf, hlog, hmap⟩ := foldl_act (listener cb) s
  have hclosed : ((listener cb).foldl act s).closed = s.closed := by
    refine (closed_foldl (listener cb) s).2.1 ?_
    rintro ⟨a, ha, hclose, -⟩
    rw [hl] at ha
    obtain ⟨b, hb, rfl⟩ := List.mem_map.mp ha
    obtain rfl : b = .close := hclose
    exact hopen cb c hb
  have hconn : ((listener cb).foldl act s).connections =
      (σ.turned (c.does (react cb c)) [(cb, c)]).connections := by
    rw [hmap]
    refine List.map_congr_left fun d hd => ?_
    rw [hl, hid]
    split_ifs with hdid
    · rw [List.inj_on_of_nodup_map h.nodup hd hc hdid]
      exact Client.after_own _
    · exact Client.after_other hdid _
  unfold Service.call
  rw [h.conn hc]
  change (listener cb).foldl act s = _
  generalize hs' : (listener cb).foldl act s = s' at *
  obtain ⟨server, batch, next, exception, erased, erasedUsed, endUsed⟩ := hf
  cases s'
  simp_all [turned, modify, s]

/-- A connection that epoll knows is armed, or the exception leaves `run`. -/
theorem rearm_turned (h : σ.Numbered) {c c' : Client} (hc : c ∈ σ.connections)
    (hid : c'.id = c.id) (hv : c'.valid = true) (e : List (Callback × Client)) (kernel : Kernel) :
    (σ.turned c' e).rearm c.id kernel = σ.turned (c'.watched (.armed c'.epollOption)) e ∨
    (σ.turned c' e).rearm c.id kernel = (σ.turned c' e).throw .epoll := by
  obtain ⟨hn, hc'⟩ := h.turned hc hid e
  have hconn := hn.conn hc'
  rw [hid] at hconn
  unfold rearm epollMod
  rw [hconn]
  dsimp only
  rw [if_pos hv]
  split_ifs
  · left
    rw [← hid]
    exact modify_turned rfl e
  · exact .inr rfl

/-- What callbacks for a connection, and what is read and written, make of it, after the
earlier `calls`. -/
structure Passes (react : React) (calls : List (Callback × Client)) (c : Client)
    (entries : List (Callback × Client)) (c' : Client) : Prop where
  id : c'.id = c.id
  ids : ∀ x ∈ entries, x.2.id = c.id
  alone : Alone react calls c → Alone react (entries ++ calls) c'

variable {calls : List (Callback × Client)}

theorem Passes.refl (c : Client) : Passes react calls c [] c := ⟨rfl, by simp, fun h => h⟩

theorem Passes.watched {c c' : Client} {e : List (Callback × Client)}
    (h : Passes react calls c e c') (w : Watch) : Passes react calls c e (c'.watched w) :=
  ⟨h.id, h.ids, fun hc => (h.alone hc).watch w⟩

theorem Passes.snoc {c c₁ c₂ : Client} {e : List (Callback × Client)} {cb : Callback}
    (h : Passes react calls c e c₁) (hid : c₂.id = c₁.id)
    (hcall : Alone react (e ++ calls) c₁ → Alone react ((cb, c₁) :: (e ++ calls)) c₂) :
    Passes react calls c ((cb, c₁) :: e) c₂ := by
  refine ⟨hid.trans h.id, fun x hx => ?_, fun hc => hcall (h.alone hc)⟩
  rcases List.mem_cons.mp hx with rfl | hx
  · exact h.id
  · exact h.ids x hx

/-- A callback for a connection that has read or written. -/
theorem call_after (h : σ.Numbered) (hopen : react.Open) {c c' : Client}
    (hc : c ∈ σ.connections) (hid : c'.id = c.id) (e : List (Callback × Client))
    (listener : Listener) (cb : Callback) :
    ((σ.turned c' e).call listener cb c.id).log = (cb, c') :: e ++ σ.log ∧
    (Fits react listener [(cb, c')] → (σ.turned c' e).call listener cb c.id =
      σ.turned (c'.does (react cb c')) ((cb, c') :: e)) := by
  obtain ⟨hn, hc'⟩ := h.turned hc hid e
  have hconn := hn.conn hc'
  rw [hid] at hconn
  refine ⟨(reports_call listener cb hconn).log, fun hfits => ?_⟩
  have hcall := call_turned hn hopen hc' (hfits _ List.mem_cons_self)
  rw [hid] at hcall
  rw [hcall]
  exact turned_turned (congrArg Prod.fst (Client.does_key (hopen cb c'))) _ _

/-- The branches on the event's bits, of which READ and WRITE were asked for. -/
theorem dispatch_turned (calls : List (Callback × Client)) (h : σ.Numbered) (hopen : react.Open)
    {ev : EpollEvent} {c : Client} (hc : c ∈ σ.connections)
    (hread : ev.events.has READ → c.epollOption.has READ)
    (hwrite : ev.events.has WRITE → c.epollOption.has WRITE) {kernel : Kernel}
    {listener : Listener} {s : Service} (hd : σ.dispatch ev c kernel listener = .ok s) :
    ∃ e, s.log = e ++ σ.log ∧ (Fits react listener e →
      ∃ c₁, s = σ.turned c₁ e ∧ c₁.key = c.key ∧ Passes react calls c e c₁) := by
  have hself := turned_self h hc
  -- a callback for the connection once it has become `d`
  have hcall : ∀ (d : Client) (cb : Callback), d.key = c.key →
      (Alone react calls c → Alone react ((cb, d) :: calls) (d.does (react cb d))) →
      ∃ e, ((σ.turned d []).call listener cb c.id).log = e ++ σ.log ∧ (Fits react listener e →
        ∃ c₁, (σ.turned d []).call listener cb c.id = σ.turned c₁ e ∧ c₁.key = c.key ∧
          Passes react calls c e c₁) := by
    intro d cb hkey halone
    obtain ⟨hlog, hgo⟩ := call_after h hopen hc (congrArg Prod.fst hkey) [] listener cb
    have hdoes := (Client.does_key (hopen cb d)).trans hkey
    refine ⟨[(cb, d)], hlog, fun hfits => ⟨_, hgo hfits, hdoes, congrArg Prod.fst hdoes, ?_,
      halone⟩⟩
    intro x hx
    rw [List.mem_singleton.mp hx]
    exact congrArg Prod.fst hkey
  have hmodify : ∀ d : Client, d.id = c.id → (σ.modify c.id fun _ => d) = σ.turned d [] := by
    intro d hd
    rw [← hd]
    rfl
  unfold dispatch at hd
  split_ifs at hd with herr hin hout hbuf
  · obtain rfl := Except.ok.inj hd
    have hgo := hcall c .onError rfl fun ha => ha.onError
    rwa [hself] at hgo
  · split at hd
    · cases hd
    · next size c' hr =>
      obtain ⟨buf, -, -, rfl, hgot⟩ := Client.readToBuffer_ok hr
      obtain rfl : c' = c.got buf.1 := hgot
      obtain rfl := Except.ok.inj hd
      rw [hmodify (c.got buf.1) rfl]
      split_ifs with hsize
      · refine hcall _ _ rfl fun ha => ?_
        have hgot : c.got buf.1 = c := by
          rw [List.length_eq_zero_iff.mp hsize]
          simp [Client.got]
        rw [hgot]
        exact ha.onError
      · refine hcall _ _ rfl fun ha => ?_
        exact ha.onReadAvailable _ (hread hin) fun hnil => hsize (by rw [hnil]; rfl)
  · split at hd
    · cases hd
    · next size c' hr =>
      obtain ⟨n, -, -, rfl, htook⟩ := Client.writeFromBuffer_ok hr
      obtain rfl : c' = c.took n := htook
      obtain rfl := Except.ok.inj hd
      rw [hmodify (c.took n) rfl]
      split_ifs with hsize
      · exact hcall _ _ rfl fun ha => (ha.write n (hwrite hout)).onError
      · exact ⟨[], rfl, fun _ => ⟨_, rfl, rfl, rfl, by simp, fun ha => ha.write n (hwrite hout)⟩⟩
  · obtain rfl := Except.ok.inj hd
    have hgo := hcall c .onWriteDone rfl fun ha => ha.onWriteDone (hwrite hout) (not_not.mp hbuf)
    rwa [hself] at hgo
  · obtain rfl := Except.ok.inj hd
    exact ⟨[], rfl, fun _ => ⟨c, hself.symm, rfl, .refl c⟩⟩

/-- The connection is closed and erased, and then tested. -/
def left (σ : Service) (c : Client) (entries : List (Callback × Client)) : Service :=
  { (σ.turned c entries).erase c.id with closed := c.id :: σ.closed, erasedUsed := true }

theorem left_connections (c : Client) (e : List (Callback × Client)) :
    (σ.left c e).connections = σ.connections.filter (·.id ≠ c.id) := by
  change (σ.connections.map fun d => if d.id = c.id then c else d).filter (·.id ≠ c.id) = _
  induction σ.connections with
  | nil => rfl
  | cons d ds ih =>
    by_cases hd : d.id = c.id
    · rw [List.map_cons, if_pos hd, List.filter_cons_of_neg (by simp), ih,
        List.filter_cons_of_neg (by simpa using hd)]
    · rw [List.map_cons, if_neg hd, List.filter_cons_of_pos (by simpa using hd), ih,
        List.filter_cons_of_pos (by simpa using hd)]

/-- How the handling of an event of `c` ends. -/
inductive Handled (react : React) (σ : Service) (c : Client) (e : List (Callback × Client)) :
    Service → Prop
  | stays (c' : Client) (hkey : c'.key = c.key) (h : Passes react (σ.calls c.id) c e c') :
      Handled react σ c e (σ.turned (c'.watched (.armed c'.epollOption)) e)
  | throws (c' : Client) (x : Exception) (hkey : c'.key = c.key)
      (h : Passes react (σ.calls c.id) c e c') :
      Handled react σ c e ((σ.turned c' e).throw x)
  | leaves (c' : Client) (h : Passes react (σ.calls c.id) c e c') :
      Handled react σ c e (σ.left c' e)
  | leavesThrows (c' : Client) (x : Exception) (h : Passes react (σ.calls c.id) c e c') :
      Handled react σ c e ((σ.left c' e).throw x)

/-- The end of a connection, after its `onClose`. -/
theorem leaves_of (h : σ.Numbered) (hopen : react.Open) {c d : Client} (hc : c ∈ σ.connections)
    {e : List (Callback × Client)} (hpass : Passes react (σ.calls c.id) c e d) (kernel : Kernel) :
    Handled react σ c ((.onClose, d) :: e)
      ((((σ.turned (d.does (react .onClose d)) ((.onClose, d) :: e)).act (c.id, .close)).erase
        c.id).rearm c.id kernel) := by
  let d' : Client := d.does (react .onClose d)
  have hid' : d'.id = d.id := congrArg Prod.fst (Client.does_key (hopen .onClose d))
  have hclosed : Passes react (σ.calls c.id) c ((.onClose, d) :: e) d'.close :=
    hpass.snoc hid' fun ha => ha.onClose
  obtain ⟨hn, hc'⟩ := h.turned hc (hid'.trans hpass.id) ((.onClose, d) :: e)
  have hsome : ((σ.turned d' ((.onClose, d) :: e)).conn c.id).isSome := by
    rw [← hpass.id, ← hid', hn.conn hc']
    rfl
  have hact : (σ.turned d' ((.onClose, d) :: e)).act (c.id, .close) =
      { σ.turned d'.close ((.onClose, d) :: e) with closed := c.id :: σ.closed } := by
    have hmod := modify_turned (σ := σ) (f := fun c => Act.close.apply c)
      (Act.apply_id d' .close) ((.onClose, d) :: e)
    rw [hid', hpass.id] at hmod
    unfold act
    rw [if_pos ⟨rfl, hsome⟩]
    dsimp only
    rw [hmod]
    rfl
  have hnone : ((({ σ.turned d'.close ((.onClose, d) :: e) with
      closed := c.id :: σ.closed } : Service).erase c.id).conn c.id) = none := by
    simp [conn, erase]
  have hleft : ({ (({ σ.turned d'.close ((.onClose, d) :: e) with
      closed := c.id :: σ.closed } : Service).erase c.id) with erasedUsed := true } : Service) =
      σ.left d'.close ((.onClose, d) :: e) := by
    unfold left
    rw [hclosed.id]
    rfl
  rw [hact]
  unfold rearm
  rw [hnone]
  dsimp only
  rw [hleft]
  split_ifs
  · exact .leavesThrows _ .epoll hclosed
  · exact .leaves _ hclosed

theorem handleClient_alone (h : σ.Numbered) (hopen : react.Open) {ev : EpollEvent} {c : Client}
    (hc : c ∈ σ.connections) (hv : c.valid = true)
    (hread : ev.events.has READ → c.epollOption.has READ)
    (hwrite : ev.events.has WRITE → c.epollOption.has WRITE) (kernel : Kernel)
    (listener : Listener) :
    ∃ e, (σ.handleClient ev c kernel listener).log = e ++ σ.log ∧
      (Fits react listener e → Handled react σ c e (σ.handleClient ev c kernel listener)) := by
  unfold handleClient
  cases hd : σ.dispatch ev c kernel listener with
  | error e =>
    refine ⟨[], rfl, fun _ => ?_⟩
    have hthrow := Handled.throws (σ := σ) c (.tcp e) rfl
      (.refl c : Passes react (σ.calls c.id) c [] c)
    rwa [turned_self h hc] at hthrow
  | ok s =>
    obtain ⟨e, hlog, hgo⟩ := dispatch_turned (σ.calls c.id) h hopen hc hread hwrite hd
    dsimp only
    split_ifs with hends
    · obtain ⟨d, hd⟩ : ∃ d, s.conn c.id = some d := by
        unfold ends at hends
        cases hs : s.conn c.id with
        | none => simp [hs] at hends
        | some d => exact ⟨d, rfl⟩
      have hlog' := (reports_call listener .onClose hd).trans (reports_act (c.id, .close))
      refine ⟨(.onClose, d) :: e, ?_, fun hfits => ?_⟩
      · rw [(reports_rearm c.id kernel).log]
        exact hlog'.log.trans (congrArg _ hlog)
      · obtain ⟨c₁, rfl, hkey, hpass⟩ := hgo fun x hx => hfits x (List.mem_cons_of_mem _ hx)
        obtain ⟨hn, hc₁⟩ := h.turned hc hpass.id e
        obtain rfl : d = c₁ := by
          rw [← hpass.id, hn.conn hc₁] at hd
          exact (Option.some.inj hd).symm
        have hcall := (call_after h hopen hc hpass.id e listener .onClose).2 fun x hx => by
          rw [List.mem_singleton.mp hx]
          exact hfits _ List.mem_cons_self
        rw [hcall]
        exact leaves_of h hopen hc hpass kernel
    · refine ⟨e, (reports_rearm c.id kernel).log.trans hlog, fun hfits => ?_⟩
      obtain ⟨c₁, rfl, hkey, hpass⟩ := hgo hfits
      have hv₁ : c₁.valid = true := (congrArg (·.2.1) hkey).trans hv
      rcases rearm_turned h hc hpass.id hv₁ e kernel with hr | hr
      · rw [hr]
        exact .stays c₁ hkey hpass
      · rw [hr]
        exact .throws c₁ .epoll hkey hpass

theorem Numbered.emplace (h : σ.Numbered) (fd : ℤ) : (σ.emplace fd).Numbered := by
  have hids : (σ.emplace fd).connections.map (·.id) = σ.connections.map (·.id) ++ [σ.next] := by
    simp [Service.emplace, Client.make]
  constructor
  · rw [hids, List.nodup_append]
    refine ⟨h.nodup, by simp, fun a ha b hb => ?_⟩
    obtain ⟨c, hc, rfl⟩ := List.mem_map.mp ha
    rw [List.mem_singleton.mp hb]
    exact (h.lt c hc).ne
  · intro c hc
    rcases List.mem_append.mp hc with hc | hc
    · exact (h.lt c hc).trans (Nat.lt_succ_self _)
    · rw [List.mem_singleton.mp hc]
      exact Nat.lt_succ_self _

/-- A new connection, whose only callback is `onNewConnection`. -/
theorem handleServer_alone (h : σ.Numbered) (hopen : react.Open) (hcalls : σ.calls σ.next = [])
    (kernel : Kernel) (listener : Listener) :
    ∃ e, (σ.handleServer kernel listener).log = e ++ σ.log ∧ (Fits react listener e →
      (∃ x errno, kernel.accept = .error errno ∧ σ.handleServer kernel listener = σ.throw x) ∨
      ∃ fd, kernel.accept = .ok fd ∧ Handled react (σ.emplace fd) (.make σ.next fd) e
        (σ.handleServer kernel listener)) := by
  unfold handleServer
  cases hacc : kernel.accept with
  | error errno => exact ⟨[], rfl, fun _ => .inl ⟨_, errno, rfl, rfl⟩⟩
  | ok fd =>
    let c : Client := .make σ.next fd
    have hn := h.emplace fd
    have hc : c ∈ (σ.emplace fd).connections :=
      List.mem_append_right _ (List.mem_singleton_self c)
    dsimp only
    split_ifs
    · let w : Client := c.watched (.armed CLOSE)
      have hw : ((σ.emplace fd).modify σ.next fun c => { c with watch := .armed CLOSE }) =
          (σ.emplace fd).turned w [] := by
        have hm := modify_turned (σ := σ.emplace fd) (c := c)
          (f := fun c => { c with watch := .armed CLOSE }) rfl []
        rwa [turned_self hn hc] at hm
      rw [hw]
      obtain ⟨hlog, hcall⟩ := call_after hn hopen hc (show w.id = c.id from rfl) [] listener
        .onNewConnection
      refine ⟨[(.onNewConnection, w)], (reports_rearm _ kernel).log.trans hlog, fun hfits => ?_⟩
      refine .inr ⟨fd, rfl, ?_⟩
      have hkey := Client.does_key (c := w) (hopen .onNewConnection w)
      have hpass : Passes react ((σ.emplace fd).calls c.id) c [(.onNewConnection, w)]
          (w.does (react .onNewConnection w)) := by
        refine ((Passes.refl c).watched (.armed CLOSE)).snoc (congrArg Prod.fst hkey) fun ha => ?_
        have hnil : (σ.emplace fd).calls c.id = [] := hcalls
        rw [hnil] at ha ⊢
        exact ha.onNewConnection
      have hr := rearm_turned hn hc hpass.id ((congrArg (·.2.1) hkey).trans rfl)
        [(.onNewConnection, w)] kernel
      rw [show σ.next = c.id from rfl, hcall hfits]
      rcases hr with hr | hr
      · rw [hr]
        exact .stays _ (hkey.trans rfl) hpass
      · rw [hr]
        exact .throws _ .epoll (hkey.trans rfl) hpass
    · refine ⟨[], rfl, fun _ => .inr ⟨fd, rfl, ?_⟩⟩
      have hthrow := Handled.throws (σ := σ.emplace fd) c .epoll rfl
        (.refl c : Passes react ((σ.emplace fd).calls c.id) c [] c)
      rwa [turned_self hn hc] at hthrow

/-! The connections are apart, and each of them is where its own run leads. -/

/-- Each connection there is or was is where its run leads. -/
structure Abides (react : React) (σ : Service) : Prop extends Numbered σ where
  alone : ∀ c ∈ σ.connections, Alone react (σ.calls c.id) c
  gone : ∀ c ∈ σ.erased, c.id < σ.next ∧ c.id ∉ σ.connections.map (·.id) ∧
    Alone react (σ.calls c.id) c
  logged : ∀ x ∈ σ.log, x.2.id < σ.next

theorem calls_turned {c c' : Client} {e : List (Callback × Client)}
    (h : Passes react calls c e c') (k : ℕ) :
    (σ.turned c' e).calls k = if k = c.id then e ++ σ.calls k else σ.calls k := by
  change (e ++ σ.log).filter (·.2.id = k) = _
  rw [List.filter_append]
  split_ifs with hk
  · rw [List.filter_eq_self.mpr fun x hx => by simp [h.ids x hx, hk]]
    rfl
  · rw [List.filter_eq_nil_iff.mpr fun x hx => by simp [h.ids x hx, Ne.symm hk], List.nil_append]
    rfl

theorem Abides.calls_next (h : σ.Abides react) : σ.calls σ.next = [] :=
  List.filter_eq_nil_iff.mpr fun x hx => by simpa using (h.logged x hx).ne

theorem Abides.throw (h : σ.Abides react) (x : Exception) : (σ.throw x).Abides react :=
  ⟨⟨h.nodup, h.lt⟩, h.alone, h.gone, h.logged⟩

theorem Abides.emplace (h : σ.Abides react) (fd : ℤ) : (σ.emplace fd).Abides react := by
  refine ⟨h.toNumbered.emplace fd, fun c hc => ?_, fun c hc => ?_, fun x hx => ?_⟩
  · rcases List.mem_append.mp hc with hc | hc
    · exact h.alone c hc
    · rw [List.mem_singleton.mp hc]
      change Alone react (σ.calls σ.next) _
      rw [h.calls_next]
      exact .accept _ _
  · obtain ⟨hlt, hnew, halone⟩ := h.gone c hc
    refine ⟨hlt.trans (Nat.lt_succ_self _), fun hmem => ?_, halone⟩
    simp only [Service.emplace, List.map_append, List.mem_append, List.map_cons, List.map_nil,
      List.mem_singleton] at hmem
    exact hmem.elim hnew hlt.ne
  · exact (h.logged x hx).trans (Nat.lt_succ_self _)

theorem Abides.turned (h : σ.Abides react) {c c' : Client} {e : List (Callback × Client)}
    (hc : c ∈ σ.connections) (hp : Passes react (σ.calls c.id) c e c') :
    (σ.turned c' e).Abides react := by
  refine ⟨(h.toNumbered.turned hc hp.id e).1, fun d hd => ?_, fun d hd => ?_, fun x hx => ?_⟩
  · rw [calls_turned hp]
    rcases mem_turned hd with rfl | ⟨hd, hid⟩
    · rw [if_pos hp.id, hp.id]
      exact hp.alone (h.alone c hc)
    · rw [if_neg (hp.id ▸ hid)]
      exact h.alone d hd
  · obtain ⟨hlt, hnew, halone⟩ := h.gone d hd
    have hne : d.id ≠ c.id := fun hid => hnew (hid ▸ List.mem_map_of_mem hc)
    rw [calls_turned hp, if_neg hne]
    refine ⟨hlt, fun hmem => hnew ?_, halone⟩
    obtain ⟨d', hd', hid⟩ := List.mem_map.mp hmem
    rcases mem_turned hd' with rfl | ⟨hd', -⟩
    · exact absurd (hid.symm.trans hp.id) hne
    · exact hid ▸ List.mem_map_of_mem hd'
  · rcases List.mem_append.mp hx with hx | hx
    · rw [hp.ids x hx]
      exact h.lt c hc
    · exact h.logged x hx

theorem Abides.left (h : σ.Abides react) {c c' : Client} {e : List (Callback × Client)}
    (hc : c ∈ σ.connections) (hp : Passes react (σ.calls c.id) c e c') :
    (σ.left c' e).Abides react := by
  have ht := h.turned hc hp
  have hsub : (σ.left c' e).connections.Sublist (σ.turned c' e).connections :=
    List.filter_sublist
  refine ⟨⟨ht.nodup.sublist (hsub.map _), fun d hd => ht.lt d (hsub.subset hd)⟩,
    fun d hd => ht.alone d (hsub.subset hd), fun d hd => ?_, ht.logged⟩
  rcases List.mem_append.mp hd with hd | hd
  · obtain ⟨hd, hid⟩ := List.mem_filter.mp hd
    refine ⟨ht.lt d hd, fun hmem => ?_, ht.alone d hd⟩
    obtain ⟨d', hd', hid'⟩ := List.mem_map.mp hmem
    have hne := (List.mem_filter.mp hd').2
    rw [hid'] at hne
    simp_all
  · obtain ⟨hlt, hnew, halone⟩ := ht.gone d hd
    exact ⟨hlt, fun hmem => hnew ((hsub.map _).subset hmem), halone⟩

theorem Abides.handled (h : σ.Abides react) {c : Client} {e : List (Callback × Client)}
    (hc : c ∈ σ.connections) (hh : Handled react σ c e σ') : σ'.Abides react := by
  rcases hh with ⟨c', -, hp⟩ | ⟨c', x, -, hp⟩ | ⟨c', hp⟩ | ⟨c', x, hp⟩
  · exact h.turned hc (hp.watched _)
  · exact (h.turned hc hp).throw x
  · exact h.left hc hp
  · exact (h.left hc hp).throw x

/-- The event is the connection's, and of READ and WRITE it has what was asked for. -/
def Asked (ev : EpollEvent) (c : Client) : Prop :=
  c.fd = ev.fd ∧ ∀ flag ∈ [READ, WRITE], ev.events.has flag → c.epollOption.has flag

/-- What is still to be handled was asked for, and epoll knows each connection's option; the
`busy` one is being handled. -/
structure Ready (busy : Option ℕ) (σ : Service) : Prop where
  valid : ∀ c ∈ σ.connections, c.valid = true ∧ c.fd ≠ σ.server
  fds : (σ.connections.map (·.fd)).Nodup
  apart : (σ.batch.map (·.fd)).Nodup
  found : σ.endUsed = false
  armed : σ.exception = none → ∀ c ∈ σ.connections, busy ≠ some c.id →
    c.watch = .armed c.epollOption
  pending : ∀ ev ∈ σ.batch, ev.fd = σ.server ∨
    ∃ c ∈ σ.connections, busy ≠ some c.id ∧ Asked ev c

theorem Ready.throw {busy : Option ℕ} (h : σ.Ready busy) (x : Exception) :
    (σ.throw x).Ready none :=
  ⟨h.valid, h.fds, List.nodup_nil, h.found, nofun, by simp [Service.throw]⟩

theorem Ready.turned {c c' : Client} (hn : σ.Numbered) (h : σ.Ready (some c.id))
    (hc : c ∈ σ.connections) (hkey : c'.key = c.key) (e : List (Callback × Client)) :
    (σ.turned c' e).Ready (some c.id) := by
  have hid : c'.id = c.id := congrArg Prod.fst hkey
  have hquiet : Quiet σ (σ.modify c'.id fun _ => c') := quiet_modify c'.id fun d hd hdid => by
    rw [List.inj_on_of_nodup_map hn.nodup hd hc (hdid.trans hid)]
    exact hkey
  refine ⟨fun d hd => ?_, ?_, h.apart, h.found, fun hnone d hd hbusy => ?_, fun ev hev => ?_⟩
  · rcases mem_turned hd with rfl | ⟨hd, -⟩
    · simp only [Client.key, Prod.mk.injEq] at hkey
      rw [hkey.2.1, hkey.2.2]
      exact h.valid c hc
    · exact h.valid d hd
  · change ((σ.modify c'.id fun _ => c').connections.map (·.fd)).Nodup
    rw [hquiet.fds]
    exact h.fds
  · rcases mem_turned hd with rfl | ⟨hd, -⟩
    · exact absurd (congrArg some hid.symm) hbusy
    · exact h.armed hnone d hd hbusy
  · rcases h.pending ev hev with hs | ⟨d, hd, hbusy, hasked⟩
    · exact .inl hs
    · exact .inr ⟨d, turned_mem hd (fun he => hbusy (congrArg some (he.trans hid).symm)) e, hbusy,
        hasked⟩

/-- The handling ends with the option of the connection armed. -/
theorem Ready.done {c : Client} (hn : σ.Numbered) (h : σ.Ready (some c.id))
    (hc : c ∈ σ.connections) (hw : c.watch = .armed c.epollOption) : σ.Ready none := by
  refine ⟨h.valid, h.fds, h.apart, h.found, fun hnone d hd _ => ?_, fun ev hev => ?_⟩
  · by_cases hid : c.id = d.id
    · rwa [List.inj_on_of_nodup_map hn.nodup hd hc hid.symm]
    · exact h.armed hnone d hd fun he => hid (Option.some.inj he)
  · rcases h.pending ev hev with hs | ⟨d, hd, -, hasked⟩
    · exact .inl hs
    · exact .inr ⟨d, hd, by simp, hasked⟩

/-- Or without the connection. -/
theorem Ready.left {c c' : Client} (h : σ.Ready (some c.id)) (hid : c'.id = c.id)
    (e : List (Callback × Client)) : (σ.left c' e).Ready none := by
  have hmem : ∀ {d}, d ∈ (σ.left c' e).connections ↔ d ∈ σ.connections ∧ d.id ≠ c.id := by
    intro d
    rw [left_connections, hid, List.mem_filter]
    simp
  have hfds : ((σ.left c' e).connections.map (·.fd)).Nodup := by
    rw [left_connections]
    exact h.fds.sublist (List.filter_sublist.map _)
  refine ⟨fun d hd => h.valid d (hmem.mp hd).1, hfds, h.apart, h.found, fun hnone d hd _ => ?_,
    fun ev hev => ?_⟩
  · exact h.armed hnone d (hmem.mp hd).1 fun he => (hmem.mp hd).2 (Option.some.inj he).symm
  · rcases h.pending ev hev with hs | ⟨d, hd, hbusy, hasked⟩
    · exact .inl hs
    · exact .inr ⟨d, hmem.mpr ⟨hd, fun he => hbusy (congrArg some he.symm)⟩, by simp, hasked⟩

theorem Ready.handled {c : Client} {e : List (Callback × Client)} (hn : σ.Numbered)
    (h : σ.Ready (some c.id)) (hc : c ∈ σ.connections) (hh : Handled react σ c e σ') :
    σ'.Ready none := by
  rcases hh with ⟨c', hkey, hp⟩ | ⟨c', x, hkey, hp⟩ | ⟨c', hp⟩ | ⟨c', x, hp⟩
  · obtain ⟨hn', hc'⟩ := hn.turned hc (hp.watched (.armed c'.epollOption)).id e
    have hkey' : (c'.watched (.armed c'.epollOption)).key = c.key := hkey
    refine Ready.done hn' ?_ hc' rfl
    rw [(hp.watched (.armed c'.epollOption)).id]
    exact h.turned hn hc hkey' e
  · exact (h.turned hn hc hkey e).throw x
  · exact h.left hp.id e
  · exact (h.left hp.id e).throw x

/-- The event of a connection is taken off the batch. -/
theorem Ready.turn {ev : EpollEvent} {rest : List EpollEvent} {c : Client} (hn : σ.Numbered)
    (h : σ.Ready none) (hno : σ.exception = none) (hbatch : σ.batch = ev :: rest)
    (hc : c ∈ σ.connections) (hfd : c.fd = ev.fd) :
    ({ σ with batch := rest, exception := none } : Service).Ready (some c.id) := by
  have hapart := h.apart
  rw [hbatch, List.map_cons, List.nodup_cons] at hapart
  refine ⟨h.valid, h.fds, hapart.2, h.found, fun _ d hd _ => h.armed hno d hd (by simp),
    fun ev' hev => ?_⟩
  rcases h.pending ev' (hbatch ▸ List.mem_cons_of_mem _ hev) with hs | ⟨d, hd, -, hasked⟩
  · exact .inl hs
  · refine .inr ⟨d, hd, fun he => ?_, hasked⟩
    obtain rfl := List.inj_on_of_nodup_map hn.nodup hc hd (Option.some.inj he)
    refine hapart.1 ?_
    rw [← hfd, hasked.1]
    exact List.mem_map_of_mem hev

theorem Ready.emplace {fd : ℤ} (hn : σ.Numbered) (h : σ.Ready none) (hfd : σ.Fresh fd) :
    (σ.emplace fd).Ready (some σ.next) := by
  obtain ⟨-, hserver, hfresh⟩ := hfd
  have hne : ∀ c ∈ σ.connections, some σ.next ≠ some c.id :=
    fun c hc he => (hn.lt c hc).ne (Option.some.inj he).symm
  refine ⟨fun c hc => ?_, ?_, h.apart, h.found, fun hno c hc hbusy => ?_, fun ev hev => ?_⟩
  · rcases List.mem_append.mp hc with hc | hc
    · exact h.valid c hc
    · rw [List.mem_singleton.mp hc]
      exact ⟨rfl, hserver⟩
  · simp only [Service.emplace, List.map_append, List.map_cons, List.map_nil]
    rw [List.nodup_append]
    refine ⟨h.fds, by simp, fun a ha b hb => ?_⟩
    obtain ⟨c, hc, rfl⟩ := List.mem_map.mp ha
    rw [List.mem_singleton.mp hb]
    exact hfresh c hc
  · rcases List.mem_append.mp hc with hc | hc
    · exact h.armed hno c hc (by simp)
    · rw [List.mem_singleton.mp hc] at hbusy
      exact absurd rfl hbusy
  · rcases h.pending ev hev with hs | ⟨c, hc, -, hasked⟩
    · exact .inl hs
    · exact .inr ⟨c, List.mem_append_left _ hc, hne c hc, hasked⟩

theorem Ready.wait {events : List EpollEvent} (h : σ.Ready none) (hno : σ.exception = none)
    (hrep : σ.Reported (.wait events)) (hwatched : ∀ ev ∈ events, σ.Watched ev.fd)
    (hapart : (events.map (·.fd)).Nodup) : ({ σ with batch := events } : Service).Ready none := by
  refine ⟨h.valid, h.fds, hapart, h.found, h.armed, fun ev hev => ?_⟩
  rcases hwatched ev hev with hs | ⟨c, hc, -, hfd⟩
  · exact .inl hs
  · refine .inr ⟨c, hc, by simp, hfd, fun flag hflag hhas => ?_⟩
    have hwants := hrep ev hev c hc hfd flag hflag hhas
    rwa [h.armed hno c hc (by simp)] at hwants

/-- How the handling of an event ends: without a new connection, with one, or with what was done
to the connection of the event. -/
theorem served_handle (hopen : react.Open) {kernel : Kernel} {listener : Listener}
    (ha : σ.Abides react) (hr : σ.Ready none) (hobeys : σ.Obeys react (.handle kernel listener))
    (hstep : σ.step (.handle kernel listener) = some σ') :
    ∃ ev rest e, σ.batch = ev :: rest ∧ σ.Admits kernel ∧
      ({ σ with batch := rest, exception := none } : Service).handle ev kernel listener = σ' ∧
      ((ev.fd = σ.server ∧ ∃ x errno, kernel.accept = .error errno ∧
          σ' = ({ σ with batch := rest, exception := none } : Service).throw x) ∨
        (ev.fd = σ.server ∧ ∃ fd, kernel.accept = .ok fd ∧
          Handled react (({ σ with batch := rest, exception := none } : Service).emplace fd)
            (.make σ.next fd) e σ') ∨
        (ev.fd ≠ σ.server ∧ ∃ c, σ.connections.find? (fun d => d.fd = ev.fd) = some c ∧
          Asked ev c ∧ Handled react { σ with batch := rest, exception := none } c e σ')) := by
  have hfits := hobeys σ' hstep
  obtain ⟨ev, rest, hbatch, hadm, rfl⟩ := step_handle hstep
  let s : Service := { σ with batch := rest, exception := none }
  have hs : s.Numbered := ⟨ha.nodup, ha.lt⟩
  have hcalls : ∀ {e l}, l = e ++ σ.log →
      Fits react listener (l.take (l.length - σ.log.length)) → Fits react listener e := by
    rintro e l rfl hl
    simpa using hl
  by_cases hserver : ev.fd = σ.server
  · have hgoes : s.handle ev kernel listener = s.handleServer kernel listener := if_pos hserver
    change Fits react listener (((s.handle ev kernel listener).log).take _) at hfits
    rw [hgoes] at hfits
    obtain ⟨e, hlog, hgo⟩ := handleServer_alone hs hopen ha.calls_next kernel listener
    refine ⟨ev, rest, e, hbatch, hadm, rfl, ?_⟩
    change _ ∨ (_ ∧ ∃ fd, _ ∧ Handled react (s.emplace fd) _ e (s.handle ev kernel listener)) ∨ _
    rcases hgo (hcalls hlog hfits) with ⟨x, errno, hacc, hx⟩ | ⟨fd, hacc, hh⟩
    · exact .inl ⟨hserver, x, errno, hacc, hgoes.trans hx⟩
    · exact .inr (.inl ⟨hserver, fd, hacc, hgoes ▸ hh⟩)
  · obtain ⟨c, hc, hask⟩ : ∃ c ∈ σ.connections, Asked ev c := by
      rcases hr.pending ev (hbatch ▸ List.mem_cons_self) with hs | ⟨c, hc, -, hask⟩
      · exact absurd hs hserver
      · exact ⟨c, hc, hask⟩
    have hfind : s.connections.find? (fun d => d.fd = ev.fd) = some c := by
      rw [← List.head?_filter, ← hask.1, filter_fd hr.fds hc]
      rfl
    have hgoes : s.handle ev kernel listener = s.handleClient ev c kernel listener := by
      unfold handle
      rw [if_neg hserver, hfind]
    change Fits react listener (((s.handle ev kernel listener).log).take _) at hfits
    rw [hgoes] at hfits
    obtain ⟨e, hlog, hgo⟩ := handleClient_alone hs hopen hc (hr.valid c hc).1
      (hask.2 READ (by simp)) (hask.2 WRITE (by simp)) kernel listener
    exact ⟨ev, rest, e, hbatch, hadm, rfl,
      .inr (.inr ⟨hserver, c, hfind, hask, hgoes ▸ hgo (hcalls hlog hfits)⟩)⟩

/-- What a step of the service keeps. -/
theorem alone_step (hopen : react.Open) {a : Input} (ha : σ.Abides react) (hr : σ.Ready none)
    (hserved : σ.Served react a) (hstep : σ.step a = some σ') :
    σ'.Abides react ∧ σ'.Ready none := by
  obtain ⟨hno, hrep, hobeys⟩ := hserved
  cases a with
  | wait events =>
    obtain ⟨⟨-, -, hwatched, hapart⟩, hstep⟩ := Option.ite_none_right_eq_some.mp hstep
    obtain rfl := Option.some.inj hstep
    exact ⟨⟨⟨ha.nodup, ha.lt⟩, ha.alone, ha.gone, ha.logged⟩, hr.wait hno hrep hwatched hapart⟩
  | handle kernel listener =>
    obtain ⟨ev, rest, e, hbatch, hadm, -, hends⟩ := served_handle hopen ha hr hobeys hstep
    let s : Service := { σ with batch := rest, exception := none }
    have has : s.Abides react := ⟨⟨ha.nodup, ha.lt⟩, ha.alone, ha.gone, ha.logged⟩
    have hrest : s.Ready none := by
      have hapart := hr.apart
      rw [hbatch, List.map_cons, List.nodup_cons] at hapart
      exact ⟨hr.valid, hr.fds, hapart.2, hr.found, fun _ => hr.armed hno,
        fun ev' hev => hr.pending ev' (hbatch ▸ List.mem_cons_of_mem _ hev)⟩
    rcases hends with ⟨-, x, -, -, rfl⟩ | ⟨-, fd, hacc, hh⟩ | ⟨-, c, hfind, hask, hh⟩
    · exact ⟨has.throw x, hrest.throw x⟩
    · have hfresh : s.Fresh fd := by
        unfold Admits at hadm
        rwa [hacc] at hadm
      have hmem : Client.make s.next fd ∈ (s.emplace fd).connections :=
        List.mem_append_right _ (List.mem_singleton_self _)
      exact ⟨(has.emplace fd).handled hmem hh,
        (hrest.emplace has.toNumbered hfresh).handled (has.toNumbered.emplace fd) hmem hh⟩
    · have hc := List.mem_of_find?_eq_some hfind
      exact ⟨has.handled hc hh,
        (hr.turn ha.toNumbered hno hbatch hc hask.1).handled has.toNumbered hc hh⟩

theorem abides_start (react : React) (server : ℤ) :
    (start server).Abides react ∧ (start server).Ready none :=
  ⟨⟨⟨List.nodup_nil, by simp [start]⟩, by simp [start], by simp [start], by simp [start]⟩,
    by simp [start], List.nodup_nil, List.nodup_nil, rfl, by simp [start], by simp [start]⟩

theorem served_abides (hopen : react.Open) {server : ℤ} {inputs : List Input}
    (hserved : Along step (Served react) (start server) inputs)
    (hrun : run step (start server) inputs = some σ) : σ.Abides react ∧ σ.Ready none :=
  run_invariant (I := fun σ => σ.Abides react ∧ σ.Ready none)
    (fun _ _ _ h hs hstep => alone_step hopen h.1 h.2 hs hstep) (abides_start react server)
    hserved hrun

/-- The run of each connection there is or was. -/
theorem Abides.run (h : σ.Abides react) {c : Client} (hc : c ∈ σ.connections ∨ c ∈ σ.erased) :
    Alone react (σ.calls c.id) c :=
  hc.elim (h.alone c) fun hc => (h.gone c hc).2.2

end Service

end Sphere.Net
