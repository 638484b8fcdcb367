import Sphere.Net.Reacting

/-! Each connection by itself: a service that has the events of one connection only, with the same
answers of the kernel and the same operations of the listener, comes to the same connection by the
same callbacks. -/

namespace Sphere.Net

open Lib.Transition

/-- What the callbacks do to the `k`-th connection. -/
def Listener.only (k : ℕ) (listener : Listener) : Listener := fun cb =>
  (listener cb).filter (·.1 = k)

namespace Service

/-- The event is the `k`-th connection's, which is accepted by it or has its descriptor. -/
def concerns (σ : Service) (k : ℕ) (ev : EpollEvent) (kernel : Kernel) : Bool :=
  if ev.fd = σ.server then σ.next = k && kernel.accept.isOk
  else (σ.connections.find? fun c => c.fd = ev.fd).any (·.id = k)

/-- Where an event of the `k`-th connection is handled: that it alone is reported, and handled. -/
def share (σ : Service) (k : ℕ) : Input → List Input
  | .wait _ => []
  | .handle kernel listener =>
    match σ.batch with
    | [] => []
    | ev :: _ =>
      if σ.concerns k ev kernel then [.wait [ev], .handle kernel (listener.only k)] else []

/-- The inputs of the `k`-th connection in a run. -/
def shares (k : ℕ) : Service → List Input → List Input
  | _, [] => []
  | σ, a :: as => σ.share k a ++ (σ.step a).elim [] fun σ' => shares k σ' as

/-- Between two events, `τ` has the `k`-th connection of `σ` and its callbacks. -/
structure Mirrors (k : ℕ) (σ τ : Service) : Prop where
  server : τ.server = σ.server
  batch : τ.batch = []
  found : τ.endUsed = false
  connections : τ.connections = σ.connections.filter (·.id = k)
  erased : τ.erased = σ.erased.filter (·.id = k)
  log : τ.log = σ.calls k

variable {σ σ' τ : Service} {k : ℕ} {react : React}

namespace Mirrors

theorem conn (h : Mirrors k σ τ) : τ.conn k = σ.conn k := by
  unfold Service.conn
  rw [h.connections, ← List.head?_filter, ← List.head?_filter, List.filter_filter]
  simp only [Bool.and_self]

/-- Everything in `τ` is of the `k`-th connection. -/
theorem own (h : Mirrors k σ τ) {c : Client} (hc : c ∈ τ.connections) : c.id = k := by
  rw [h.connections] at hc
  simpa using (List.mem_filter.mp hc).2

/-- A change of connections that keeps their numbers. -/
theorem map (h : Mirrors k σ τ) {s t : Service} {f g : Client → Client}
    (hf : ∀ c, (f c).id = c.id) (hg : ∀ c, c.id = k → g c = f c)
    (hs : SameFrame σ s) (ht : SameFrame τ t) (hslog : s.log = σ.log) (htlog : t.log = τ.log)
    (hsconn : s.connections = σ.connections.map f) (htconn : t.connections = τ.connections.map g) :
    Mirrors k s t := by
  refine ⟨ht.server.trans (h.server.trans hs.server.symm), ht.batch.trans h.batch,
    ht.endUsed.trans h.found, ?_, ?_, ?_⟩
  · have hkept : (fun c : Client => decide (c.id = k)) ∘ f = fun c => decide (c.id = k) := by
      funext c
      simp only [Function.comp_apply, hf]
    rw [htconn, hsconn, List.filter_map, hkept, h.connections]
    refine List.map_congr_left fun c hc => hg c ?_
    simpa using (List.mem_filter.mp hc).2
  · rw [ht.erased, hs.erased, h.erased]
  · rw [htlog, h.log]
    unfold Service.calls
    rw [hslog]

theorem modify (h : Mirrors k σ τ) (j : ℕ) {f : Client → Client}
    (hf : ∀ c, c.id = j → (f c).id = j) :
    Mirrors k (σ.modify j f) (τ.modify j f) := by
  refine h.map (f := fun c => if c.id = j then f c else c) (fun c => ?_) (fun _ _ => rfl)
    ⟨rfl, rfl, rfl, rfl, rfl, rfl, rfl⟩ ⟨rfl, rfl, rfl, rfl, rfl, rfl, rfl⟩ rfl rfl rfl rfl
  split_ifs with hid
  · rw [hf c hid, hid]
  · rfl

theorem after_only {c : Client} (hid : c.id = k) (acts : List (ℕ × Act)) :
    c.after (acts.filter (·.1 = k)) = c.after acts := by
  induction acts generalizing c with
  | nil => rfl
  | cons a acts ih =>
    by_cases ha : a.1 = k
    · rw [List.filter_cons_of_pos (by simpa using ha), Client.after_cons, Client.after_cons]
      refine ih ?_
      split_ifs
      · rw [Act.apply_id, hid]
      · exact hid
    · rw [List.filter_cons_of_neg (by simpa using ha), Client.after_cons,
        if_neg (by rw [hid]; exact Ne.symm ha), ih hid]

/-- Operations, of which `τ` has those on the `k`-th connection. -/
theorem acts (h : Mirrors k σ τ) (acts : List (ℕ × Act)) :
    Mirrors k (acts.foldl act σ) ((acts.filter (·.1 = k)).foldl act τ) := by
  obtain ⟨hs, hslog, hsconn⟩ := foldl_act acts σ
  obtain ⟨ht, htlog, htconn⟩ := foldl_act (acts.filter (·.1 = k)) τ
  exact h.map (fun c => Client.after_id acts c) (fun c hc => after_only hc acts) hs ht hslog htlog
    hsconn htconn

theorem call (h : Mirrors k σ τ) (listener : Listener) (cb : Callback) :
    Mirrors k (σ.call listener cb k) (τ.call (listener.only k) cb k) := by
  unfold Service.call
  rw [h.conn]
  cases hc : σ.conn k with
  | none => exact h
  | some c =>
    have hid : c.id = k := by simpa using List.find?_some hc
    have hlogged : Mirrors k { σ with log := (cb, c) :: σ.log }
        { τ with log := (cb, c) :: τ.log } := by
      refine ⟨h.server, h.batch, h.found, h.connections, h.erased, ?_⟩
      change (cb, c) :: τ.log = ((cb, c) :: σ.log).filter (·.2.id = k)
      rw [List.filter_cons_of_pos (by simpa using hid), h.log]
      rfl
    exact hlogged.acts (listener cb)

theorem throw (h : Mirrors k σ τ) (x y : Exception) : Mirrors k (σ.throw x) (τ.throw y) :=
  ⟨h.server, rfl, h.found, h.connections, h.erased, h.log⟩

theorem rearm (h : Mirrors k σ τ) (kernel : Kernel) :
    Mirrors k (σ.rearm k kernel) (τ.rearm k kernel) := by
  unfold Service.rearm epollMod
  rw [h.conn]
  have hused : Mirrors k { σ with erasedUsed := true } { τ with erasedUsed := true } :=
    ⟨h.server, h.batch, h.found, h.connections, h.erased, h.log⟩
  cases hc : σ.conn k with
  | none =>
    dsimp only
    split_ifs
    · exact hused.throw _ _
    · exact hused
  | some c =>
    dsimp only
    split_ifs
    · exact h.modify k fun _ hid => hid
    · exact h.throw _ _
    · exact h

theorem erase (h : Mirrors k σ τ) : Mirrors k (σ.erase k) (τ.erase k) := by
  refine ⟨h.server, h.batch, h.found, ?_, ?_, h.log⟩
  · change τ.connections.filter (·.id ≠ k) = (σ.connections.filter (·.id ≠ k)).filter (·.id = k)
    rw [h.connections, List.filter_comm]
  · change τ.connections.filter (·.id = k) ++ τ.erased =
      (σ.connections.filter (·.id = k) ++ σ.erased).filter (·.id = k)
    rw [List.filter_append, h.connections, h.erased, List.filter_filter]

theorem emplace (h : Mirrors k σ τ) (hσ : σ.next = k) (hτ : τ.next = k) (fd : ℤ) :
    Mirrors k (σ.emplace fd) (τ.emplace fd) := by
  refine ⟨h.server, h.batch, h.found, ?_, h.erased, h.log⟩
  change τ.connections ++ [Client.make τ.next fd] =
    (σ.connections ++ [Client.make σ.next fd]).filter _
  rw [List.filter_append, h.connections, hσ, hτ,
    List.filter_cons_of_pos (by simp [Client.make]), List.filter_nil]

end Mirrors

/-- Two results of the branches on an event's bits. -/
inductive Alike (k : ℕ) : Except TcpError Service → Except TcpError Service → Prop
  | error (e : TcpError) : Alike k (.error e) (.error e)
  | ok {s t : Service} (h : Mirrors k s t) : Alike k (.ok s) (.ok t)

namespace Mirrors

theorem dispatch (h : Mirrors k σ τ) (ev : EpollEvent) {c : Client} (hid : c.id = k)
    (kernel : Kernel) (listener : Listener) :
    Alike k (σ.dispatch ev c kernel listener) (τ.dispatch ev c kernel (listener.only k)) := by
  subst hid
  unfold Service.dispatch
  split_ifs
  · exact .ok (h.call listener _)
  · cases hr : c.readToBuffer kernel.read with
    | error e => exact .error e
    | ok r =>
      obtain ⟨size, c'⟩ := r
      obtain ⟨buf, -, -, -, hc'⟩ := Client.readToBuffer_ok hr
      exact .ok ((h.modify c.id fun _ _ => by rw [hc']).call listener _)
  · cases hr : c.writeFromBuffer kernel.write with
    | error e => exact .error e
    | ok r =>
      obtain ⟨size, c'⟩ := r
      obtain ⟨n, -, -, -, hc'⟩ := Client.writeFromBuffer_ok hr
      have hmodified := h.modify c.id (f := fun _ => c') fun _ _ => by rw [hc']
      dsimp only
      split_ifs
      · exact .ok (hmodified.call listener _)
      · exact .ok hmodified
  · exact .ok (h.call listener _)
  · exact .ok h

theorem handleClient (h : Mirrors k σ τ) (ev : EpollEvent) {c : Client} (hid : c.id = k)
    (kernel : Kernel) (listener : Listener) :
    Mirrors k (σ.handleClient ev c kernel listener)
      (τ.handleClient ev c kernel (listener.only k)) := by
  have halike := h.dispatch ev hid kernel listener
  unfold Service.handleClient
  generalize σ.dispatch ev c kernel listener = a at halike ⊢
  generalize τ.dispatch ev c kernel (listener.only k) = b at halike ⊢
  rcases halike with e | hst
  · exact h.throw _ _
  · next s t =>
    have hends : t.ends ev c.id = s.ends ev c.id := by
      unfold Service.ends
      rw [hid, hst.conn]
    dsimp only
    rw [hends, hid]
    split_ifs
    · have hclosed := (hst.call listener .onClose).acts [(k, .close)]
      rw [List.filter_cons_of_pos (by simp), List.filter_nil] at hclosed
      exact hclosed.erase.rearm kernel
    · exact hst.rearm kernel

theorem handleServer (h : Mirrors k σ τ) (hσ : σ.next = k) (hτ : τ.next = k) (kernel : Kernel)
    (listener : Listener) :
    Mirrors k (σ.handleServer kernel listener) (τ.handleServer kernel (listener.only k)) := by
  unfold Service.handleServer
  cases kernel.accept with
  | error errno => exact h.throw _ _
  | ok fd =>
    dsimp only
    rw [hσ, hτ]
    split_ifs
    · have harmed := (h.emplace hσ hτ fd).modify k
        (f := fun c => { c with watch := .armed CLOSE }) fun _ hid => hid
      exact (harmed.call listener .onNewConnection).rearm kernel
    · exact (h.emplace hσ hτ fd).throw _ _

/-- What is done to another connection. -/
theorem other (h : Mirrors k σ τ) {c : Client} {e : List (Callback × Client)} (hne : c.id ≠ k)
    (hh : Handled react σ c e σ') : Mirrors k σ' τ := by
  have hturned {c' : Client} (hp : Passes react (σ.calls c.id) c e c') :
      Mirrors k (σ.turned c' e) τ := by
    refine ⟨h.server, h.batch, h.found, ?_, h.erased, ?_⟩
    · rw [h.connections]
      change _ = (σ.connections.map fun d => if d.id = c'.id then c' else d).filter _
      induction σ.connections with
      | nil => rfl
      | cons d ds ih =>
        rw [List.map_cons, List.filter_cons, List.filter_cons, ih]
        by_cases hd : d.id = c'.id
        · have hid : c'.id ≠ k := hp.id ▸ hne
          rw [if_pos hd, hd, decide_eq_false hid]
          rfl
        · rw [if_neg hd]
    · rw [h.log, calls_turned hp, if_neg (Ne.symm hne)]
  have hleft {c' : Client} (hp : Passes react (σ.calls c.id) c e c') :
      Mirrors k (σ.left c' e) τ := by
    have ht := hturned hp
    have hid : c'.id ≠ k := hp.id ▸ hne
    refine ⟨ht.server, ht.batch, ht.found, ?_, ?_, ht.log⟩
    · change _ = ((σ.turned c' e).connections.filter (·.id ≠ c'.id)).filter _
      rw [ht.connections, List.filter_filter]
      refine List.filter_congr fun d _ => ?_
      by_cases hd : d.id = k <;> simp [hd, Ne.symm hid]
    · change _ = ((σ.turned c' e).connections.filter (·.id = c'.id) ++
        (σ.turned c' e).erased).filter _
      rw [ht.erased, List.filter_append, List.filter_filter]
      have hnone : (σ.turned c' e).connections.filter (fun d => d.id = k && d.id = c'.id) = [] := by
        refine List.filter_eq_nil_iff.mpr fun d _ => ?_
        by_cases hd : d.id = k <;> simp [hd, Ne.symm hid]
      rw [hnone, List.nil_append]
  rcases hh with ⟨c', hkey, hp⟩ | ⟨c', x, hkey, hp⟩ | ⟨c', hp⟩ | ⟨c', x, hp⟩
  · exact hturned (hp.watched _)
  · have ht := hturned hp
    exact ⟨ht.server, ht.batch, ht.found, ht.connections, ht.erased, ht.log⟩
  · exact hleft hp
  · have ht := hleft hp
    exact ⟨ht.server, ht.batch, ht.found, ht.connections, ht.erased, ht.log⟩

end Mirrors

theorem Handled.next {c : Client} {e : List (Callback × Client)}
    (hh : Handled react σ c e σ') : σ'.next = σ.next := by
  rcases hh with ⟨c', -, -⟩ | ⟨c', x, -, -⟩ | ⟨c', -⟩ | ⟨c', x, -⟩ <;> rfl

/-- The event is reported to `τ`, and handled there. -/
theorem run_one {ev : EpollEvent} {kernel : Kernel} {listener : Listener} (hbatch : τ.batch = [])
    (hfound : τ.endUsed = false) (hwatched : τ.Watched ev.fd) (hadm : τ.Admits kernel) :
    run step τ [.wait [ev], .handle kernel listener] =
      some (({ τ with batch := [], exception := none } : Service).handle ev kernel listener) := by
  have hwait : τ.step (.wait [ev]) = some { τ with batch := [ev] } := by
    refine if_pos ⟨hbatch, hfound, fun ev' hev => ?_, List.nodup_singleton _⟩
    rwa [List.mem_singleton.mp hev]
  have hhandle : ({ τ with batch := [ev] } : Service).step (.handle kernel listener) =
      some (({ τ with batch := [], exception := none } : Service).handle ev kernel listener) :=
    if_pos hadm
  simp only [run, hwait, hhandle, Option.bind_some]

/-- An input of many connections, and what of it is the `k`-th one's. -/
theorem Mirrors.step (hopen : react.Open) {a : Input} (ha : σ.Abides react) (hr : σ.Ready none)
    (hserved : σ.Served react a) (hstep : σ.step a = some σ') (h : Mirrors k σ τ)
    (hnext : σ.next ≤ k → τ.next = k) : ∃ τ', Lib.Transition.run Service.step τ (σ.share k a) =
      some τ' ∧ Mirrors k σ' τ' ∧ (σ'.next ≤ k → τ'.next = k) := by
  obtain ⟨hno, -, hobeys⟩ := hserved
  cases a with
  | wait events =>
    obtain ⟨-, hs⟩ := Option.ite_none_right_eq_some.mp hstep
    obtain rfl := Option.some.inj hs
    exact ⟨τ, rfl, ⟨h.server, h.batch, h.found, h.connections, h.erased, h.log⟩, hnext⟩
  | handle kernel listener =>
    obtain ⟨ev, rest, e, hbatch, hadm, hgoes, hends⟩ := served_handle hopen ha hr hobeys hstep
    let s : Service := { σ with batch := rest, exception := none }
    let t : Service := { τ with batch := [], exception := none }
    have hst : Mirrors k s t := ⟨h.server, rfl, h.found, h.connections, h.erased, h.log⟩
    have hrest : Mirrors k s τ := ⟨h.server, h.batch, h.found, h.connections, h.erased, h.log⟩
    have hadm' : τ.Admits kernel := by
      unfold Admits at hadm ⊢
      cases hacc : kernel.accept with
      | error errno => trivial
      | ok fd =>
        rw [hacc] at hadm
        obtain ⟨hpos, hserver, hfresh⟩ := hadm
        refine ⟨hpos, h.server ▸ hserver, fun c hc => hfresh c ?_⟩
        rw [h.connections] at hc
        exact (List.mem_filter.mp hc).1
    unfold share
    rw [hbatch]
    dsimp only
    rcases hends with ⟨hserver, x, errno, hacc, rfl⟩ | ⟨hserver, fd, hacc, hh⟩ |
      ⟨hclient, c, hfind, hask, hh⟩
    · -- `accept` fails
      have hnone : σ.concerns k ev kernel = false := by
        unfold concerns
        rw [if_pos hserver, hacc]
        exact Bool.and_false _
      rw [hnone]
      exact ⟨τ, rfl, ⟨h.server, h.batch, h.found, h.connections, h.erased, h.log⟩, hnext⟩
    · have hnew : σ'.next = σ.next + 1 := hh.next
      by_cases hk : σ.next = k
      · have hown : σ.concerns k ev kernel = true := by
          unfold concerns
          rw [if_pos hserver, hacc, decide_eq_true hk]
          rfl
        rw [hown, if_pos rfl]
        refine ⟨_, run_one h.batch h.found (.inl (hserver.trans h.server.symm)) hadm', ?_,
          fun hle => by omega⟩
        rw [← hgoes]
        unfold handle
        rw [if_pos hserver, if_pos (hserver.trans h.server.symm)]
        exact hst.handleServer hk (hnext hk.le) kernel listener
      · have hnone : σ.concerns k ev kernel = false := by
          unfold concerns
          rw [if_pos hserver, decide_eq_false hk]
          rfl
        rw [hnone]
        have hother : Mirrors k (s.emplace fd) τ := by
          refine ⟨hrest.server, hrest.batch, hrest.found, ?_, hrest.erased, hrest.log⟩
          change _ = (s.connections ++ [Client.make σ.next fd]).filter _
          rw [List.filter_append, List.filter_cons_of_neg (by simp [Client.make, hk]),
            List.filter_nil, List.append_nil, hrest.connections]
        exact ⟨τ, rfl, hother.other hk hh, fun hle => hnext (by omega)⟩
    · have hc := List.mem_of_find?_eq_some hfind
      have hsame : σ'.next = σ.next := hh.next
      by_cases hk : c.id = k
      · have hown : σ.concerns k ev kernel = true := by
          unfold concerns
          rw [if_neg hclient, hfind]
          exact decide_eq_true hk
        have hmem : c ∈ τ.connections := by
          rw [h.connections]
          exact List.mem_filter.mpr ⟨hc, by simpa using hk⟩
        have hwatched : τ.Watched ev.fd := by
          refine .inr ⟨c, hmem, ?_, hask.1⟩
          rw [hr.armed hno c hc (by simp)]
          simp
        have hfind' : t.connections.find? (fun d => d.fd = ev.fd) = some c := by
          have hfds : (t.connections.map (·.fd)).Nodup := by
            rw [hst.connections]
            exact hr.fds.sublist (List.filter_sublist.map _)
          rw [← List.head?_filter, ← hask.1, filter_fd hfds hmem]
          rfl
        rw [hown, if_pos rfl]
        refine ⟨_, run_one h.batch h.found hwatched hadm', ?_, fun hle => ?_⟩
        · rw [← hgoes]
          unfold handle
          rw [if_neg hclient, if_neg (by rw [h.server]; exact hclient), hfind', hfind]
          exact hst.handleClient ev hk kernel listener
        · have hlt := ha.lt c hc
          omega
      · have hnone : σ.concerns k ev kernel = false := by
          unfold concerns
          rw [if_neg hclient, hfind]
          exact decide_eq_false hk
        rw [hnone]
        exact ⟨τ, rfl, hrest.other hk hh, fun hle => hnext (by omega)⟩

theorem Mirrors.run (hopen : react.Open) {inputs : List Input} (ha : σ.Abides react)
    (hr : σ.Ready none) (hserved : Along Service.step (Served react) σ inputs)
    (hrun : Lib.Transition.run Service.step σ inputs = some σ') (h : Mirrors k σ τ)
    (hnext : σ.next ≤ k → τ.next = k) : ∃ τ', Lib.Transition.run Service.step τ
      (shares k σ inputs) = some τ' ∧ Mirrors k σ' τ' := by
  induction inputs generalizing σ τ with
  | nil =>
    obtain rfl := Option.some.inj hrun
    exact ⟨τ, rfl, h⟩
  | cons a inputs ih =>
    obtain ⟨s, hstep, hrest⟩ := run_cons_some hrun
    obtain ⟨ha', hr'⟩ := alone_step hopen ha hr hserved.1 hstep
    obtain ⟨t, ht, hst, hnext'⟩ := h.step hopen ha hr hserved.1 hstep hnext
    obtain ⟨τ', hτ', hmirrors⟩ := ih ha' hr' (hserved.tail hstep) hrest hst hnext'
    refine ⟨τ', ?_, hmirrors⟩
    rw [shares, hstep, run_append, ht]
    exact hτ'

/-- The service that has had `k` connections, and has none. -/
def vacant (server : ℤ) (k : ℕ) : Service := { start server with next := k }

end Service

/-- A service of many connections is many services of one: in every run, whatever the order of
the events, each connection is in the state, and has had the callbacks, that its own inputs lead to
in a service without any other connection. Every event's descriptor is found, and between two
events epoll watches each connection for its option. -/
theorem connections_alone (react : React) (hopen : react.Open) (server : ℤ)
    (inputs : List Service.Input) (σ : Service)
    (hserved : Along Service.step (Service.Served react) (Service.start server) inputs)
    (hrun : run Service.step (Service.start server) inputs = some σ) :
    (∀ k, ∃ τ, run Service.step (Service.vacant server k)
        (Service.shares k (Service.start server) inputs) = some τ ∧
      τ.connections = σ.connections.filter (·.id = k) ∧
      τ.erased = σ.erased.filter (·.id = k) ∧ τ.log = σ.calls k) ∧
    σ.endUsed = false ∧
    (σ.exception = none → ∀ c ∈ σ.connections, c.watch = .armed c.epollOption) := by
  obtain ⟨-, hr⟩ := Service.served_abides hopen hserved hrun
  refine ⟨fun k => ?_, hr.found, fun hno c hc => hr.armed hno c hc (by simp)⟩
  obtain ⟨ha₀, hr₀⟩ := Service.abides_start react server
  have hstart : Service.Mirrors k (Service.start server) (Service.vacant server k) :=
    ⟨rfl, rfl, rfl, rfl, rfl, rfl⟩
  obtain ⟨τ, hτ, hmirrors⟩ := hstart.run hopen ha₀ hr₀ hserved hrun fun _ => rfl
  exact ⟨τ, hτ, hmirrors.connections, hmirrors.erased, hmirrors.log⟩

/-- Answers what it reads, and stops watching when the answer is sent. -/
def repeats : React
  | .onNewConnection, _ => [.subscribe READ]
  | .onReadAvailable, c => [.write c.read, .subscribe WRITE]
  | .onWriteDone, _ => [.unsubscribe WRITE]
  | .onClose, _ | .onError, _ => []

/-- Two clients; the second one writes first, and leaves while the first one is answered. -/
def crossingRun : List Service.Input :=
  [.wait [⟨3, READ⟩], .handle { blocked with accept := .ok 5 } fun _ => [(0, .subscribe READ)],
    .wait [⟨3, READ⟩], .handle { blocked with accept := .ok 6 } fun _ => [(1, .subscribe READ)],
    .wait [⟨6, READ⟩, ⟨5, READ⟩],
    .handle { blocked with read := .data (oneRead [2]) } fun _ =>
      [(1, .write [2]), (1, .subscribe WRITE)],
    .handle { blocked with read := .data (oneRead [1]) } fun _ =>
      [(0, .write [1]), (0, .subscribe WRITE)],
    .wait [⟨6, CLOSE⟩, ⟨5, WRITE⟩], .handle blocked fun _ => [],
    .handle { blocked with write := .wrote 1 } fun _ => []]

theorem connections_alone_crossing :
    ∃ σ τ, run Service.step (Service.start 3) crossingRun = some σ ∧
      run Service.step (Service.vacant 3 0) (Service.shares 0 (Service.start 3) crossingRun) =
        some τ ∧ (Service.shares 0 (Service.start 3) crossingRun).length = 6 ∧
      τ.connections = σ.connections.filter (·.id = 0) ∧ τ.connections.map (·.sent) = [[1]] := by
  have hrun : (run Service.step (Service.start 3) crossingRun).map
      (fun σ => (σ.connections.filter (·.id = 0)).map (·.sent)) = some [[1]] := by
    decide +kernel
  have hopen : repeats.Open := by
    intro cb c
    cases cb <;> simp [repeats]
  have hserved : Along Service.step (Service.Served repeats) (Service.start 3) crossingRun := by
    decide +kernel
  obtain ⟨σ, hσ, hsent⟩ := Option.map_eq_some_iff.mp hrun
  obtain ⟨τ, hτ, hconnections, -⟩ :=
    (connections_alone repeats hopen 3 crossingRun σ hserved hσ).1 0
  refine ⟨σ, τ, hσ, hτ, ?_, hconnections, hconnections ▸ hsent⟩
  decide +kernel

end Sphere.Net
