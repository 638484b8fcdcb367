import Sphere.Net.Reading

/-! What a client has sent when it hangs up. `run` reads one chunk for each event and calls
`onClose` in the same round when the event carries `EPOLLRDHUP`; what the socket still holds
is lost with it. -/

namespace Sphere.Net

open Lib.Transition

/-- The sending side of a client: all that it has sent, what of it the socket still holds,
and whether it has been shut down. -/
structure Peer where
  sent : List UInt8
  unread : List UInt8
  shut : Bool
  deriving DecidableEq

/-- The service and the client of each connection there is or will be. -/
structure World where
  service : Service
  peer : ℕ → Peer

namespace World

def start (server : ℤ) : World := ⟨.start server, fun _ => ⟨[], [], false⟩⟩

/-- Epoll reports nothing but what is there: bytes or the end of the stream to read, and the
hang-up only once the client has shut down. -/
def Truthful (ω : World) (ev : EpollEvent) : Prop :=
  ∀ c ∈ ω.service.connections, c.fd = ev.fd → ev.fd ≠ ω.service.server →
    (ev.events.has READ = true → (ω.peer c.id).unread ≠ [] ∨ (ω.peer c.id).shut = true) ∧
    (ev.events.has CLOSE = true → (ω.peer c.id).shut = true)

/-- A read takes the next bytes, some if there are any, and finds the end of the stream only
when all has been read. -/
def Serves (ω : World) (kernel : Kernel) : Prop :=
  ∀ x ∈ ω.service.turn, x.1.events.has EPOLLERR = false → x.1.events.has READ = true →
    match kernel.read with
    | .data buf => buf.1 <+: (ω.peer x.2.id).unread ∧
        (buf.1 = [] → (ω.peer x.2.id).unread = [] ∧ (ω.peer x.2.id).shut = true)
    | .fail _ => True

/-- The bytes read are gone from the socket. -/
def afterRead (ω : World) (kernel : Kernel) : ℕ → Peer :=
  match ω.service.turn with
  | none => ω.peer
  | some (ev, c) => Function.update ω.peer c.id
      { ω.peer c.id with unread := (ω.peer c.id).unread.drop (took ev kernel).length }

instance (ω : World) (ev : EpollEvent) : Decidable (ω.Truthful ev) :=
  inferInstanceAs (Decidable (∀ c ∈ ω.service.connections, _))

instance (ω : World) (kernel : Kernel) : Decidable (ω.Serves kernel) := by
  unfold Serves
  split <;> infer_instance

/-- A client sends or shuts down its sending side, or the service goes on. -/
inductive Move
  | send (k : ℕ) (data : List UInt8)
  | shutdown (k : ℕ)
  | wait (events : List EpollEvent)
  | handle (kernel : Kernel) (listener : Listener)

def step (ω : World) : Move → Option World
  | .send k data =>
    let p := ω.peer k
    if p.shut then none
    else
      let p := { p with sent := p.sent ++ data, unread := p.unread ++ data }
      some { ω with peer := Function.update ω.peer k p }
  | .shutdown k =>
    some { ω with peer := Function.update ω.peer k { ω.peer k with shut := true } }
  | .wait events =>
    if ∀ ev ∈ events, ω.Truthful ev then
      (ω.service.step (.wait events)).map fun s => { ω with service := s }
    else none
  | .handle kernel listener =>
    if ω.Serves kernel then
      (ω.service.step (.handle kernel listener)).map fun s => ⟨s, ω.afterRead kernel⟩
    else none

/-- Each `onClose` of the log, the newest entry first, finds in `read_` all that its client
has sent, and comes after an `onReadAvailable` that found the same, unless nothing was sent. -/
def WholeLog (sent : ℕ → List UInt8) : List (Callback × Client) → Prop
  | [] => True
  | (cb, c) :: log =>
    (cb = .onClose → c.read = sent c.id ∧
      (c.read = [] ∨ ∃ d, (.onReadAvailable, d) ∈ log ∧ d.id = c.id ∧ d.read = c.read)) ∧
    WholeLog sent log

def Whole (ω : World) : Prop := WholeLog (fun k => (ω.peer k).sent) ω.service.log

/-- The next step keeps it so. -/
def StaysWhole (ω : World) (a : Move) : Prop := ∀ ω', ω.step a = some ω' → ω'.Whole

/-- An event that ends its connection reads all that is unread; and nothing is sent over a
connection that has been ended. -/
def Drains (ω : World) : Move → Prop
  | .send k data => data = [] ∨ ∀ x ∈ ω.service.log, x.1 = .onClose → x.2.id ≠ k
  | .handle kernel listener => ∀ x ∈ ω.service.turn, Service.fails x.1 x.2 kernel = false →
      Service.Ended x.1 x.2 kernel listener →
        (ω.peer x.2.id).unread.length ≤ (took x.1 kernel).length
  | _ => True

/-- What has been read of a client and what is unread are all that it has sent, and what has
been read has been reported. -/
structure Tracked (ω : World) : Prop where
  kept : ω.service.Kept
  sockets : ω.service.Sockets
  come : ∀ c ∈ ω.service.connections,
    (ω.peer c.id).sent = c.received ++ (ω.peer c.id).unread
  fresh : ∀ k, ω.service.next ≤ k → (ω.peer k).unread = (ω.peer k).sent
  told : ∀ c ∈ ω.service.connections, c.received = [] ∨
    ∃ d, (.onReadAvailable, d) ∈ ω.service.log ∧ d.came = c.came

instance (ω : World) (a : Move) : Decidable (ω.Drains a) := by
  unfold Drains
  split <;> infer_instance

theorem tracked_start (server : ℤ) : (start server).Tracked :=
  ⟨Service.kept_start server, ⟨nofun, nofun⟩, nofun, fun _ _ => rfl, nofun⟩

/-- Calls and changes that read nothing leave it so. -/
theorem Tracked.reports {ω : World} (h : ω.Tracked) {s : Service}
    {entries : List (Callback × Client)} (hr : Service.Reports ω.service entries s)
    (hk : s.Kept) (hs : s.Sockets) : Tracked { ω with service := s } := by
  have hback : ∀ c' ∈ s.connections, ∃ c ∈ ω.service.connections, c.came = c'.came := by
    intro c' hc'
    have hmem := List.mem_map_of_mem (f := Client.came) hc'
    rw [hr.came] at hmem
    exact List.mem_map.mp hmem
  refine ⟨hk, hs, fun c' hc' => ?_, fun k hle => h.fresh k (hr.next ▸ hle), fun c' hc' => ?_⟩
  · obtain ⟨c, hc, heq⟩ := hback c' hc'
    obtain ⟨hid, hrec⟩ := Prod.mk.inj heq
    rw [← hid, ← hrec]
    exact h.come c hc
  · obtain ⟨c, hc, heq⟩ := hback c' hc'
    rw [← heq, ← (Prod.mk.inj heq).2]
    refine (h.told c hc).imp id fun ⟨d, hd, hcame⟩ => ⟨d, ?_, hcame⟩
    rw [hr.log]
    exact List.mem_append_right _ hd

theorem Tracked.emplace {ω : World} (h : ω.Tracked) {fd : ℤ} (hfd : 0 ≤ fd) :
    Tracked { ω with service := ω.service.emplace fd } := by
  refine ⟨h.kept.emplace fd, h.sockets.emplace hfd, fun c hc => ?_,
    fun k hle => h.fresh k (Nat.le_of_succ_le hle), fun c hc => ?_⟩
  · obtain hc | hc := List.mem_append.mp hc
    · exact h.come c hc
    · obtain rfl := List.mem_singleton.mp hc
      exact (h.fresh _ le_rfl).symm
  · obtain hc | hc := List.mem_append.mp hc
    · exact h.told c hc
    · obtain rfl := List.mem_singleton.mp hc
      exact .inl rfl

/-- The client of one connection changes: the bytes it adds are unread. -/
theorem Tracked.update {ω : World} (h : ω.Tracked) {k : ℕ} {p : Peer} (data : List UInt8)
    (hsent : p.sent = (ω.peer k).sent ++ data) (hun : p.unread = (ω.peer k).unread ++ data) :
    Tracked { ω with peer := Function.update ω.peer k p } := by
  refine ⟨h.kept, h.sockets, fun c hc => ?_, fun j hle => ?_, h.told⟩
  · dsimp only
    by_cases hid : c.id = k
    · rw [hid, Function.update_self, hsent, hun, ← hid, h.come c hc, List.append_assoc]
    · rw [Function.update_of_ne hid]
      exact h.come c hc
  · dsimp only
    by_cases hid : j = k
    · rw [hid, Function.update_self, hsent, hun, ← hid, h.fresh j hle]
    · rw [Function.update_of_ne hid]
      exact h.fresh j hle

theorem took_of_fails {ev : EpollEvent} {c : Client} {kernel : Kernel}
    (h : Service.fails ev c kernel = true) : took ev kernel = [] := by
  unfold Service.fails at h
  unfold took
  split_ifs at h ⊢ with herr hin hout
  · cases hr : kernel.read with
    | data buf => simp [hr] at h
    | fail errno => rfl
  · rfl

/-- What is read is the beginning of what is unread. -/
theorem took_of_serves {ω : World} {ev : EpollEvent} {c : Client} {kernel : Kernel}
    (h : ω.Serves kernel) (hturn : ω.service.turn = some (ev, c)) :
    took ev kernel <+: (ω.peer c.id).unread := by
  have hone := h (ev, c) hturn
  unfold took
  split_ifs with herr hin
  · exact List.nil_prefix
  · have hserves := hone (by simpa using herr) hin
    cases hr : kernel.read with
    | data buf =>
      rw [hr] at hserves
      exact hserves.1
    | fail errno => exact List.nil_prefix
  · exact List.nil_prefix

/-- The bytes read have gone from the socket to `read_`, and have been reported. -/
theorem Tracked.handled {ω : World} (h : ω.Tracked) {ev : EpollEvent} {c : Client}
    {kernel : Kernel} {listener : Listener} {s : Service}
    (hc : c ∈ ω.service.connections) (hturn : ω.service.turn = some (ev, c))
    (hserves : ω.Serves kernel) (hb : Service.HandledBy ω.service ev c kernel listener s)
    (hk : s.Kept) (hs : s.Sockets) : Tracked ⟨s, ω.afterRead kernel⟩ := by
  have hsplit : (ω.peer c.id).unread
      = took ev kernel ++ (ω.peer c.id).unread.drop (took ev kernel).length :=
    (List.prefix_iff_eq_append.mp (took_of_serves hserves hturn)).symm
  have hafter : ω.afterRead kernel = Function.update ω.peer c.id
      { ω.peer c.id with unread := (ω.peer c.id).unread.drop (took ev kernel).length } := by
    unfold afterRead
    rw [hturn]
  obtain ⟨entries, -, htells, hopen, hended⟩ := hb.log
  have hgrows : ∀ x, x ∈ entries ∨ x ∈ ω.service.log → x ∈ s.log := by
    intro x hx
    have hx := List.mem_append.mpr hx
    by_cases hend : Service.Ended ev c kernel listener
    · obtain ⟨d, -, hlog⟩ := hended hend
      exact hlog ▸ List.mem_cons_of_mem _ hx
    · exact hopen hend ▸ hx
  rw [hafter]
  refine ⟨hk, hs, fun d' hd' => ?_, fun k hle => ?_, fun d' hd' => ?_⟩
  · obtain ⟨d, hd, heq⟩ := hb.came d' hd'
    dsimp only
    split_ifs at heq with hid
    · obtain ⟨hid', hrec⟩ := Prod.mk.inj heq
      rw [hid', hrec, Function.update_self, List.append_assoc, ← hsplit]
      exact h.come c hc
    · obtain ⟨hid', hrec⟩ := Prod.mk.inj heq
      rw [hid', hrec, Function.update_of_ne hid]
      exact h.come d hd
  · have hne : k ≠ c.id := ((h.kept.lt c hc).trans_le (hb.next ▸ hle)).ne'
    dsimp only
    rw [Function.update_of_ne hne]
    exact h.fresh k (hb.next ▸ hle)
  · obtain ⟨d, hd, heq⟩ := hb.came d' hd'
    have hold : ∀ e ∈ ω.service.connections, e.came = d'.came → d'.received = [] ∨
        ∃ x, (.onReadAvailable, x) ∈ s.log ∧ x.came = d'.came := by
      intro e he heq
      rw [← heq, ← (Prod.mk.inj heq).2]
      exact (h.told e he).imp id fun ⟨x, hx, hcame⟩ => ⟨x, hgrows _ (.inr hx), hcame⟩
    split_ifs at heq with hid
    · by_cases hnone : took ev kernel = []
      · rw [hnone, List.append_nil] at heq
        exact hold c hc heq.symm
      · obtain ⟨x, hx, hcame⟩ := htells hnone
        exact .inr ⟨x, hgrows _ (.inl hx), hcame.trans heq.symm⟩
    · exact hold d hd heq.symm

theorem wholeLog_append {sent : ℕ → List UInt8} {entries log : List (Callback × Client)}
    (h : ∀ x ∈ entries, x.1 ≠ .onClose) : WholeLog sent (entries ++ log) ↔ WholeLog sent log := by
  induction entries with
  | nil => exact Iff.rfl
  | cons x entries ih =>
    obtain ⟨cb, c⟩ := x
    have hx : cb ≠ .onClose := h (cb, c) (by simp)
    rw [List.cons_append, WholeLog, ih fun y hy => h y (by simp [hy])]
    exact and_iff_right fun hcb => absurd hcb hx

theorem wholeLog_mem {sent : ℕ → List UInt8} {log : List (Callback × Client)} {c : Client}
    (h : WholeLog sent log) (hc : (.onClose, c) ∈ log) : c.read = sent c.id := by
  induction log with
  | nil => cases hc
  | cons x log ih =>
    obtain hx | hc := List.mem_cons.mp hc
    · subst hx
      exact (h.1 rfl).1
    · exact ih h.2 hc

theorem wholeLog_congr {sent sent' : ℕ → List UInt8} {log : List (Callback × Client)}
    (h : ∀ x ∈ log, x.1 = .onClose → sent' x.2.id = sent x.2.id) :
    WholeLog sent' log ↔ WholeLog sent log := by
  induction log with
  | nil => exact Iff.rfl
  | cons x log ih =>
    obtain ⟨cb, c⟩ := x
    rw [WholeLog, WholeLog, ih fun y hy => h y (by simp [hy])]
    refine and_congr_left fun _ => forall_congr' fun hcb => ?_
    rw [h (cb, c) (by simp) hcb]

theorem afterRead_sent (ω : World) (kernel : Kernel) (k : ℕ) :
    (ω.afterRead kernel k).sent = (ω.peer k).sent := by
  unfold afterRead
  cases ω.service.turn with
  | none => rfl
  | some x =>
    dsimp only
    by_cases hid : k = x.2.id
    · rw [hid, Function.update_self]
    · rw [Function.update_of_ne hid]

/-- At the end of a connection nothing is lost exactly when its last event has read all. -/
theorem handled_whole_iff {ω : World} (h : ω.Tracked) (hw : ω.Whole) {ev : EpollEvent}
    {c : Client} {kernel : Kernel} {listener : Listener} {s : Service}
    (hc : c ∈ ω.service.connections) (hturn : ω.service.turn = some (ev, c))
    (hserves : ω.Serves kernel) (hb : Service.HandledBy ω.service ev c kernel listener s)
    (hk : s.Kept) : Whole ⟨s, ω.afterRead kernel⟩ ↔
      (Service.Ended ev c kernel listener →
        (ω.peer c.id).unread.length ≤ (took ev kernel).length) := by
  have hpre := took_of_serves hserves hturn
  have hcome := h.come c hc
  obtain ⟨entries, hno, htells, hopen, hended⟩ := hb.log
  have hwhole : WholeLog (fun k => (ω.peer k).sent) (entries ++ ω.service.log) :=
    (wholeLog_append hno).mpr hw
  have hsent : (fun k => (ω.afterRead kernel k).sent) = fun k => (ω.peer k).sent :=
    funext fun k => afterRead_sent ω kernel k
  change WholeLog (fun k => (ω.afterRead kernel k).sent) s.log ↔ _
  rw [hsent]
  by_cases hend : Service.Ended ev c kernel listener
  · obtain ⟨d, hcame, hlog⟩ := hended hend
    obtain ⟨hid, hrec⟩ := Prod.mk.inj hcame
    have hread : ∀ x ∈ s.log, x.2.read = x.2.received := fun x hx => (hk.log x hx).1.2
    rw [hlog] at hread ⊢
    have hd : d.read = c.received ++ took ev kernel :=
      (hread _ List.mem_cons_self).trans hrec
    refine ⟨fun hw' _ => ?_, fun hle => ⟨fun _ => ⟨?_, ?_⟩, hwhole⟩⟩
    · have heq : d.read = (ω.peer d.id).sent := (hw'.1 rfl).1
      rw [hd, hid, hcome] at heq
      rw [List.append_cancel_left heq]
    · change d.read = (ω.peer d.id).sent
      rw [hd, hid, hcome, hpre.eq_of_length_le (hle hend)]
    · -- the last bytes have been reported by this event or, if it read none, by an earlier one
      by_cases hnone : took ev kernel = []
      · rw [hnone, List.append_nil] at hd
        rw [hd]
        refine (h.told c hc).imp id fun ⟨x, hx, hxc⟩ => ?_
        obtain ⟨hxid, hxrec⟩ := Prod.mk.inj hxc
        have hx := List.mem_append_right entries hx
        exact ⟨x, hx, hxid.trans hid.symm, (hread _ (List.mem_cons_of_mem _ hx)).trans hxrec⟩
      · obtain ⟨x, hx, hxc⟩ := htells hnone
        obtain ⟨hxid, hxrec⟩ := Prod.mk.inj hxc
        have hx := List.mem_append_left ω.service.log hx
        refine .inr ⟨x, hx, hxid.trans hid.symm, ?_⟩
        exact (hread _ (List.mem_cons_of_mem _ hx)).trans (hxrec.trans hd.symm)
  · rw [hopen hend]
    exact iff_of_true hwhole fun hend' => absurd hend' hend

/-- More bytes from a client whose connection has been ended. -/
theorem send_whole_iff {ω : World} {k : ℕ} {data : List UInt8} {p : Peer} (h : ω.Whole)
    (hp : p.sent = (ω.peer k).sent ++ data) :
    Whole { ω with peer := Function.update ω.peer k p } ↔ ω.Drains (.send k data) := by
  refine ⟨fun h' => ?_, fun hdrains => ?_⟩
  · by_contra hnot
    simp only [Drains, not_or, not_forall, not_not] at hnot
    obtain ⟨hdata, ⟨cb, c⟩, hx, rfl, rfl⟩ := hnot
    have h1 := wholeLog_mem h hx
    have h2 := wholeLog_mem h' hx
    dsimp only at h2
    rw [Function.update_self, hp, h1] at h2
    exact hdata (List.self_eq_append_right.mp h2)
  · refine (wholeLog_congr fun x hx hcb => ?_).mpr h
    dsimp only
    by_cases hid : x.2.id = k
    · obtain rfl | hno := hdrains
      · rw [hid, Function.update_self, hp, List.append_nil]
      · exact absurd hid (hno x hx hcb)
    · rw [Function.update_of_ne hid]

theorem whole_reports {ω : World} (hw : ω.Whole) {s : Service}
    {entries : List (Callback × Client)} (hr : Service.Reports ω.service entries s)
    (hno : ∀ x ∈ entries, x.1 ≠ .onClose) : Whole { ω with service := s } := by
  unfold Whole
  rw [hr.log]
  exact (wholeLog_append hno).mpr hw

/-- An event that reads nothing takes nothing from its client. -/
theorem afterRead_eq {ω : World} {kernel : Kernel}
    (h : ∀ x ∈ ω.service.turn, took x.1 kernel = []) : ω.afterRead kernel = ω.peer := by
  unfold afterRead
  cases hturn : ω.service.turn with
  | none => rfl
  | some x =>
    dsimp only
    rw [h x hturn, List.length_nil, List.drop_zero]
    exact Function.update_eq_self _ _

/-- An event that calls nothing but what reads nothing. -/
theorem quiet_handle {ω : World} {kernel : Kernel} {listener : Listener} {s : Service}
    (ht : Tracked { ω with service := s }) (hw : Whole { ω with service := s })
    (hquiet : ∀ x ∈ ω.service.turn, Service.fails x.1 x.2 kernel = true) :
    Tracked ⟨s, ω.afterRead kernel⟩ ∧
      (Whole ⟨s, ω.afterRead kernel⟩ ↔ ω.Drains (.handle kernel listener)) := by
  rw [afterRead_eq fun x hx => took_of_fails (hquiet x hx)]
  refine ⟨ht, iff_of_true hw fun x hx hno => ?_⟩
  rw [hquiet x hx] at hno
  cases hno

theorem Tracked.handle {ω : World} (h : ω.Tracked) (hw : ω.Whole) {kernel : Kernel}
    {listener : Listener} {s : Service} (hserves : ω.Serves kernel)
    (hstep : ω.service.step (.handle kernel listener) = some s) :
    Tracked ⟨s, ω.afterRead kernel⟩ ∧
      (Whole ⟨s, ω.afterRead kernel⟩ ↔ ω.Drains (.handle kernel listener)) := by
  have hk := h.kept.step hstep
  have hs := h.sockets.step h.kept hstep
  obtain ⟨ev, rest, hbatch, hadm, hstep⟩ := Service.step_handle hstep
  let σ : Service := { ω.service with batch := rest, exception := none }
  change σ.handle ev kernel listener = s at hstep
  have hturn := Service.turn_eq hbatch
  unfold Service.handle at hstep
  split_ifs at hstep with hserver
  · rw [if_pos hserver] at hturn
    have hquiet : ∀ x ∈ ω.service.turn, Service.fails x.1 x.2 kernel = true := by simp [hturn]
    obtain hr | ⟨entries, fd, hacc, hno, hr⟩ :=
      Service.handleServer_reports (σ := σ) kernel listener
    · rw [hstep] at hr
      have hr : Service.Reports ω.service [] s := ⟨hr.came, hr.next, hr.log⟩
      exact quiet_handle (h.reports hr hk hs) (whole_reports hw hr nofun) hquiet
    · rw [hstep] at hr
      have hr : Service.Reports (ω.service.emplace fd) entries s := ⟨hr.came, hr.next, hr.log⟩
      have hfd : 0 ≤ fd := by
        unfold Service.Admits at hadm
        rw [hacc] at hadm
        exact hadm.1
      refine quiet_handle ((h.emplace hfd).reports hr hk hs) ?_ hquiet
      exact whole_reports (ω := { ω with service := ω.service.emplace fd }) hw hr hno
  · rw [if_neg hserver] at hturn
    cases hfind : σ.connections.find? fun c => c.fd = ev.fd with
    | none =>
      rw [hfind] at hstep
      rw [show ω.service.connections.find? (fun c => c.fd = ev.fd) = none from hfind] at hturn
      subst hstep
      have hr : Service.Reports ω.service [] { σ with batch := [], endUsed := true } :=
        ⟨rfl, rfl, rfl⟩
      exact quiet_handle (h.reports hr hk hs) (whole_reports hw hr nofun) (by simp [hturn])
    | some c =>
      rw [hfind] at hstep
      change σ.handleClient ev c kernel listener = s at hstep
      rw [show ω.service.connections.find? (fun c => c.fd = ev.fd) = some c from hfind] at hturn
      obtain ⟨hc, hv⟩ := h.sockets.valid hbatch hserver hfind
      obtain ⟨hfail, hr⟩ | ⟨hfail, hb⟩ := Service.handleClient_handled (σ := σ)
        ⟨h.kept.nodup, h.kept.lt⟩ ev kernel listener hc hv
      · rw [hstep] at hr
        have hr : Service.Reports ω.service [] s := ⟨hr.came, hr.next, hr.log⟩
        exact quiet_handle (h.reports hr hk hs) (whole_reports hw hr nofun)
          (by simp [hturn, hfail])
      · rw [hstep] at hb
        have hb : Service.HandledBy ω.service ev c kernel listener s :=
          ⟨hb.came, hb.next, hb.log⟩
        refine ⟨h.handled hc hturn hserves hb hk hs, ?_⟩
        rw [handled_whole_iff h hw hc hturn hserves hb hk]
        simp [Drains, hturn, hfail]

theorem Tracked.step {ω ω' : World} {a : Move} (h : ω.Tracked ∧ ω.Whole)
    (hstep : ω.step a = some ω') :
    (ω.StaysWhole a ↔ ω.Drains a) ∧ (ω.Drains a → ω'.Tracked ∧ ω'.Whole) := by
  obtain ⟨h, hw⟩ := h
  have hstays : ω.StaysWhole a ↔ ω'.Whole := by
    refine ⟨fun hall => hall ω' hstep, fun hw' ω'' hstep' => ?_⟩
    rwa [← Option.some.inj (hstep.symm.trans hstep')]
  suffices hone : ω'.Tracked ∧ (ω'.Whole ↔ ω.Drains a) by
    rw [hstays]
    exact ⟨hone.2, fun hd => ⟨hone.1, hone.2.mpr hd⟩⟩
  cases a with
  | send k data =>
    obtain ⟨-, hstep⟩ := Option.ite_none_left_eq_some.mp hstep
    obtain rfl := Option.some.inj hstep
    exact ⟨h.update data rfl rfl, send_whole_iff hw rfl⟩
  | shutdown k =>
    obtain rfl := Option.some.inj hstep
    have hup : Tracked { ω with
        peer := Function.update ω.peer k { ω.peer k with shut := true } } :=
      h.update [] (by simp) (by simp)
    exact ⟨hup, (send_whole_iff hw (by simp)).trans (iff_of_true (.inl rfl) trivial)⟩
  | wait events =>
    obtain ⟨-, hstep⟩ := Option.ite_none_right_eq_some.mp hstep
    obtain ⟨s, hs, rfl⟩ := Option.map_eq_some_iff.mp hstep
    have hk := h.kept.step hs
    have hss := h.sockets.step h.kept hs
    obtain ⟨-, hs⟩ := Option.ite_none_right_eq_some.mp hs
    obtain rfl := Option.some.inj hs
    have hr : Service.Reports ω.service [] { ω.service with batch := events } := ⟨rfl, rfl, rfl⟩
    exact ⟨h.reports hr hk hss, iff_of_true (whole_reports hw hr nofun) trivial⟩
  | handle kernel listener =>
    obtain ⟨hserves, hstep⟩ := Option.ite_none_right_eq_some.mp hstep
    obtain ⟨s, hs, rfl⟩ := Option.map_eq_some_iff.mp hstep
    exact h.handle hw hserves hs

end World

/-- In every run, over anything the clients send, any events and any reads: at each `onClose`
all that the client has sent is in `read_` and has been reported, if and only if each event
that ends a connection reads all that is unread, and nothing is sent over it afterwards. -/
theorem streams_whole_iff (server : ℤ) (moves : List World.Move) (ω : World)
    (hrun : run World.step (World.start server) moves = some ω) :
    Along World.step World.StaysWhole (World.start server) moves ↔
      Along World.step World.Drains (World.start server) moves :=
  run_along_iff (I := fun ω => ω.Tracked ∧ ω.Whole)
    (fun _ _ _ h hstep => World.Tracked.step h hstep) ⟨World.tracked_start server, trivial⟩ hrun

/-- A client sends two bytes, which are read, and hangs up. -/
def partingRun : List World.Move :=
  [.wait [⟨3, READ⟩], .handle { blocked with accept := .ok 5 } (subscribes READ),
    .send 0 [1, 2], .wait [⟨5, READ⟩],
    .handle { blocked with read := .data (oneRead [1, 2]) } fun _ => [],
    .shutdown 0, .wait [⟨5, READ + CLOSE⟩],
    .handle { blocked with read := .data (oneRead []) } fun _ => []]

theorem streams_whole_parting :
    ∃ ω, run World.step (World.start 3) partingRun = some ω ∧
      Along World.step World.StaysWhole (World.start 3) partingRun ∧
      ω.service.log.map (fun x => (x.1, x.2.read)) = [(.onClose, [1, 2]), (.onError, [1, 2]),
        (.onReadAvailable, [1, 2]), (.onNewConnection, [])] := by
  have hrun : (run World.step (World.start 3) partingRun).map (fun ω =>
      ω.service.log.map fun x => (x.1, x.2.read)) = some [(.onClose, [1, 2]), (.onError, [1, 2]),
        (.onReadAvailable, [1, 2]), (.onNewConnection, [])] := by decide
  obtain ⟨ω, hω, hlog⟩ := Option.map_eq_some_iff.mp hrun
  exact ⟨ω, hω, (streams_whole_iff 3 partingRun ω hω).mpr (by decide), hlog⟩

/-- A client sends one byte more than a read takes, and hangs up before the read. -/
def hastyRun : List World.Move :=
  [.wait [⟨3, READ⟩], .handle { blocked with accept := .ok 5 } (subscribes READ),
    .send 0 (List.replicate 129 65), .shutdown 0, .wait [⟨5, READ + CLOSE⟩],
    .handle { blocked with read := .data ⟨List.replicate 128 65, by simp [BUF_SIZE]⟩ } fun _ => []]

/-- The last byte is never read: `onClose` finds 128 bytes of the 129. -/
theorem tail_lost :
    ∃ ω, run World.step (World.start 3) hastyRun = some ω ∧
      (ω.service.log.map fun x => (x.1, x.2.id, x.2.read.length)) =
        [(.onClose, 0, 128), (.onReadAvailable, 0, 128), (.onNewConnection, 0, 0)] ∧
      (ω.peer 0).sent.length = 129 ∧ (ω.peer 0).shut = true ∧ ω.service.connections.length = 0 ∧
      ¬ ω.Whole := by
  have hrun : (run World.step (World.start 3) hastyRun).map (fun ω =>
      ((ω.service.log.map fun x => (x.1, x.2.id, x.2.read.length)), (ω.peer 0).sent.length,
        (ω.peer 0).shut, ω.service.connections.length)) =
      some ([(.onClose, 0, 128), (.onReadAvailable, 0, 128), (.onNewConnection, 0, 0)],
        129, true, 0) := by
    decide +kernel
  obtain ⟨ω, hω, hq⟩ := Option.map_eq_some_iff.mp hrun
  simp only [Prod.mk.injEq] at hq
  obtain ⟨hlog, hsent, hshut, hempty⟩ := hq
  refine ⟨ω, hω, hlog, hsent, hshut, hempty, fun hw => ?_⟩
  obtain ⟨⟨cb, c⟩, log, hcons, hx, -⟩ := List.map_eq_cons_iff.mp hlog
  simp only [Prod.mk.injEq] at hx
  obtain ⟨rfl, hid, hlen⟩ := hx
  have hread := World.wholeLog_mem hw (hcons ▸ List.mem_cons_self)
  rw [hread, hid, hsent] at hlen
  cases hlen

end Sphere.Net
