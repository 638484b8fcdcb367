import Sphere.Http.System

/-! What `dump_timed_out_connections` leaves open when nothing comes in between. It closes the
front of the timeout list place by place and ends at the first one that it does not close
itself, be it closed already or not timed out by its own limit; what has timed out behind it
stays open, as does a connection whose place has no node. -/

namespace Sphere.Http

open Lib Net

/-- The connection is open, and `is_timed_out` says yes. -/
def Service.Reported (s : Service) (p : ℕ) : Prop :=
  (s.conn p).valid = true ∧ s.timedOut p = true

instance (s : Service) (p : ℕ) : Decidable (s.Reported p) := by
  unfold Service.Reported
  infer_instance

/-- An open connection, idle for longer than the limit that applies to it. -/
def Service.Expired (s : Service) (p : ℕ) : Prop :=
  (s.conn p).valid = true ∧ (s.timeo p : ℤ) * 1000000000 < s.now - (s.conn p).start

instance (s : Service) (p : ℕ) : Decidable (s.Expired p) := by
  unfold Service.Expired
  infer_instance

/-- A limit of up to 292 years, and no older connection. -/
theorem Service.reported_iff_expired {s : Service} {p : ℕ}
    (hlimit : (s.timeo p : ℤ) * 1000000000 < 2 ^ 63)
    (hidle : -2 ^ 63 ≤ s.now - (s.conn p).start ∧ s.now - (s.conn p).start < 2 ^ 63) :
    s.Reported p ↔ s.Expired p := by
  have hexact {x : ℤ} (hlo : -2 ^ 63 ≤ x) (hhi : x < 2 ^ 63) : toInt64 x = x :=
    Int.bmod_eq_of_le_mul_two (by omega) (by omega)
  unfold Service.Reported Service.Expired Service.timedOut HttpConnection.isTimedOut
  rw [hexact hidle.1 hidle.2, hexact (x := s.timeo p) (by omega) (by omega),
    hexact (by omega) hlimit, decide_eq_true_iff]

/-- No place has such a connection. -/
def Service.Swept (s : Service) : Prop := ∀ p < s.size, ¬ s.Expired p

/-- What has expired stands in the list and is reported, as is every place in front of it. -/
def Service.ExpiredFirst (s : Service) : Prop :=
  ∀ q < s.size, s.Expired q → s.Reported q ∧ ∃ before after,
    s.timeod.elems = before ++ q :: after ∧ before.Nodup ∧ ∀ p ∈ before, s.Reported p

/-- The acceptor is inside `dump_timed_out_connections`. -/
def Acceptor.inDump : Acceptor → Bool
  | .dumping | .scanning _ | .closing _ | .halfClosed _ | .popping _ => true
  | _ => false

/-- A step of the acceptor inside the function, the other threads and the clock at rest. -/
def System.dumpStep (σ : System) (x : AcceptorInput) : Option System :=
  if σ.acceptor.inDump then σ.step (.acceptor x) else none

/-- The places of `done` have been closed, and nothing else has changed. -/
structure ClosesAll (s : Service) (done : List ℕ) (s' : Service) : Prop where
  nodup : done.Nodup
  reported : ∀ p ∈ done, s.Reported p
  conn : ∀ q, s'.conn q = if q ∈ done then (s.conn q).close else s.conn q
  size : s'.size = s.size
  now : s'.now = s.now
  connTimeo : s'.connTimeo = s.connTimeo
  kaConnTimeo : s'.kaConnTimeo = s.kaConnTimeo

theorem ClosesAll.refl (s : Service) : ClosesAll s [] s :=
  ⟨List.nodup_nil, by simp, by simp, rfl, rfl, rfl, rfl⟩

theorem ClosesAll.reported_iff {s s' : Service} {done : List ℕ} (h : ClosesAll s done s') (q : ℕ) :
    s'.Reported q ↔ s.Reported q ∧ q ∉ done := by
  unfold Service.Reported Service.timedOut Service.timeo
  rw [h.conn, h.now, h.connTimeo, h.kaConnTimeo]
  by_cases hq : q ∈ done
  · simp [hq, HttpConnection.close]
  · simp [hq]

theorem ClosesAll.expired_iff {s s' : Service} {done : List ℕ} (h : ClosesAll s done s') (q : ℕ) :
    s'.Expired q ↔ s.Expired q ∧ q ∉ done := by
  unfold Service.Expired Service.timeo
  rw [h.conn, h.now, h.connTimeo, h.kaConnTimeo]
  by_cases hq : q ∈ done
  · simp [hq, HttpConnection.close]
  · simp [hq]

theorem ClosesAll.congr {s s' t : Service} {done : List ℕ} (h : ClosesAll s done s')
    (hconn : ∀ q, t.conn q = s'.conn q) (hsize : t.size = s'.size) (hnow : t.now = s'.now)
    (hto : t.connTimeo = s'.connTimeo) (hka : t.kaConnTimeo = s'.kaConnTimeo) :
    ClosesAll s done t :=
  ⟨h.nodup, h.reported, fun q => (hconn q).trans (h.conn q), hsize.trans h.size, hnow.trans h.now,
    hto.trans h.connTimeo, hka.trans h.kaConnTimeo⟩

theorem ClosesAll.close {s s' : Service} {done : List ℕ} {p : ℕ} (h : ClosesAll s done s')
    (hrep : s'.Reported p) : ClosesAll s (done ++ [p]) (s'.setConn p (s'.conn p).close) := by
  obtain ⟨hrep, hfresh⟩ := (h.reported_iff p).mp hrep
  refine ⟨?_, fun q hq => ?_, fun q => ?_, h.size, h.now, h.connTimeo, h.kaConnTimeo⟩
  · rw [List.nodup_append]
    refine ⟨h.nodup, by simp, fun a ha b hb => ?_⟩
    rintro rfl
    obtain rfl : a = p := by simpa using hb
    exact hfresh ha
  · rcases List.mem_append.mp hq with hq | hq
    · exact h.reported q hq
    · obtain rfl : q = p := by simpa using hq
      exact hrep
  · rw [setConn_conn, h.conn p, if_neg hfresh, h.conn q]
    by_cases hqp : q = p
    · subst hqp
      simp
    · simp [hqp]

/-- What the scan has seen of the list, `done` of it closed and `rest` still ahead. -/
def Sweeping (s : Service) (σ : System) : Prop :=
  ∃ done rest, s.timeod.elems = done ++ rest ∧ ClosesAll s done σ.service ∧
    match σ.acceptor with
    | .dumping => σ.service.timeod.elems = rest
    | .scanning p => σ.service.timeod.elems = rest ∧ rest.head? = some p
    | .closing p => σ.service.timeod.elems = rest ∧ rest.head? = some p ∧ σ.service.Reported p
    | .halfClosed p | .popping p => σ.service.timeod.elems = p :: rest
    | .counting => ∀ p ∈ rest.head?, ¬ σ.service.Reported p
    | _ => False

theorem elems_front (l : NodeList ℕ) : l.elems.head? = l.front.map Prod.snd := by
  simp [NodeList.elems, NodeList.front]

theorem elems_popFront (l : NodeList ℕ) : l.popFront.elems = l.elems.tail := by
  simp [NodeList.elems, NodeList.popFront]

theorem dumpStep_some {σ σ' : System} {x : AcceptorInput} (h : σ.dumpStep x = some σ') :
    σ.acceptor.inDump = true ∧ ∃ s' a', σ.acceptor.step false x σ.service = some (s', a') ∧
      σ'.service = s' ∧ σ'.acceptor = a' := by
  unfold System.dumpStep System.step at h
  split_ifs at h with hin
  obtain ⟨r, hr, rfl⟩ := Option.map_eq_some_iff.mp h
  exact ⟨hin, r.1, r.2, hr, rfl, rfl⟩

/-- One step of the scan: the front is looked at, closed in three steps and taken out. -/
theorem Sweeping.step {s : Service} {σ σ' : System} {x : AcceptorInput} (h : Sweeping s σ)
    (hstep : σ.dumpStep x = some σ') : Sweeping s σ' := by
  obtain ⟨done, rest, hsplit, hc, hpoint⟩ := h
  obtain ⟨hin, s', a', hs, rfl, rfl⟩ := dumpStep_some hstep
  have hfront := elems_front σ.service.timeod
  cases hacc : σ.acceptor <;> rw [hacc] at hin hs hpoint <;> try cases hin
  case dumping =>
    rw [hpoint] at hfront
    cases hf : σ.service.timeod.front <;> rw [hf] at hfront <;>
      simp only [Acceptor.step, hf, Option.some.injEq, Prod.mk.injEq] at hs <;>
      refine ⟨done, rest, hsplit, hs.1 ▸ hc, ?_⟩ <;> rw [← hs.2, ← hs.1]
    · intro p hp
      rw [hfront] at hp
      cases hp
    · exact ⟨hpoint, hfront⟩
  case scanning p =>
    simp only [Acceptor.step] at hs
    split_ifs at hs with hfree hexp <;> simp only [Option.some.injEq, Prod.mk.injEq] at hs
    · have hc' := hc.congr (t := σ.service.setMutex p (some .acceptor))
        (fun q => setMutex_conn _ _ _ _) rfl rfl rfl rfl
      refine ⟨done, rest, hsplit, hs.1 ▸ hc', ?_⟩
      rw [← hs.2, ← hs.1]
      exact ⟨hpoint.1, hpoint.2, (hc'.reported_iff p).mpr ((hc.reported_iff p).mp hexp)⟩
    · refine ⟨done, rest, hsplit, hs.1 ▸ hc, ?_⟩
      rw [← hs.2, ← hs.1]
      intro q hq
      obtain rfl : p = q := Option.some.inj (hpoint.2.symm.trans hq)
      exact hexp
  case closing p =>
    obtain ⟨helems, hhead, hexp⟩ := hpoint
    obtain ⟨rest, rfl⟩ := List.head?_eq_some_iff.mp hhead
    simp only [Acceptor.step] at hs
    split_ifs at hs with hfree
    simp only [Option.some.injEq, Prod.mk.injEq] at hs
    refine ⟨done ++ [p], rest, by simp [hsplit], ?_, ?_⟩ <;> rw [← hs.1]
    · exact (hc.close hexp).congr (fun _ => rfl) rfl rfl rfl rfl
    · rw [← hs.2]
      exact helems
  case halfClosed p =>
    simp only [Acceptor.step, Option.some.injEq, Prod.mk.injEq] at hs
    refine ⟨done, rest, hsplit, ?_, ?_⟩ <;> rw [← hs.1]
    · exact hc.congr (fun q => setMutex_conn _ _ _ _) rfl rfl rfl rfl
    · rw [← hs.2]
      exact hpoint
  case popping p =>
    simp only [Acceptor.step, Option.some.injEq, Prod.mk.injEq] at hs
    refine ⟨done, rest, hsplit, ?_, ?_⟩ <;> rw [← hs.1]
    · exact hc.congr (fun _ => rfl) rfl rfl rfl rfl
    · rw [← hs.2]
      exact (elems_popFront _).trans (by rw [hpoint]; rfl)

/-- What a whole scan closes is the front of the list up to the first place it leaves. -/
theorem scan_closes {σ σ' : System} {xs : List AcceptorInput} (hacc : σ.acceptor = .dumping)
    (hrun : Transition.run System.dumpStep σ xs = some σ') (hend : σ'.acceptor = .counting) :
    ∃ done rest, σ.service.timeod.elems = done ++ rest ∧
      ClosesAll σ.service done σ'.service ∧ ∀ p ∈ rest.head?, ¬ σ'.service.Reported p := by
  have hstart : Sweeping σ.service σ := ⟨[], _, rfl, .refl _, by rw [hacc]; rfl⟩
  have hswept := Transition.run_preserves (fun _ _ _ h hs => Sweeping.step h hs) hstart hrun
  obtain ⟨done, rest, hsplit, hc, hpoint⟩ := hswept
  rw [hend] at hpoint
  exact ⟨done, rest, hsplit, hc, hpoint⟩

theorem swept_iff {s s' : Service} {done rest : List ℕ} (hsplit : s.timeod.elems = done ++ rest)
    (hc : ClosesAll s done s') (hrest : ∀ p ∈ rest.head?, ¬ s'.Reported p) :
    s'.Swept ↔ s.ExpiredFirst := by
  refine ⟨fun h q hq hexp => ?_, fun h q hq hexp' => ?_⟩
  · have hdone : q ∈ done := by
      by_contra hq'
      exact h q (hc.size ▸ hq) ((hc.expired_iff q).mpr ⟨hexp, hq'⟩)
    obtain ⟨before, after, rfl⟩ := List.append_of_mem hdone
    refine ⟨hc.reported q hdone, before, after ++ rest, by simp [hsplit], ?_,
      fun p hp => hc.reported p (by simp [hp])⟩
    exact (List.nodup_append.mp hc.nodup).1
  · obtain ⟨hexp, hnew⟩ := (hc.expired_iff q).mp hexp'
    obtain ⟨hrep, before, after, hq', hnodup, hbefore⟩ := h q (hc.size ▸ hq) hexp
    have hrep' := (hc.reported_iff q).mpr ⟨hrep, hnew⟩
    -- `q` has not been closed, so the scan has stopped in front of it or at it
    rw [hsplit] at hq'
    rcases List.append_eq_append_iff.mp hq' with ⟨more, rfl, rfl⟩ | ⟨more, rfl, hmore⟩
    · cases more with
      | nil => exact hrest q (by simp) hrep'
      | cons p more =>
        refine hrest p (by simp) ((hc.reported_iff p).mpr ⟨hbefore p (by simp), fun hp => ?_⟩)
        exact (List.nodup_append.mp hnodup).2.2 p hp p (by simp) rfl
    · cases more with
      | nil =>
        obtain rfl : rest = q :: after := by simpa using hmore.symm
        exact hrest q (by simp) hrep'
      | cons p more =>
        obtain rfl : q = p := by simpa using (List.cons.inj hmore).1
        exact hnew (by simp)

/-- The scan can start: nobody holds a lock, and no exception has left a worker. -/
structure System.DumpReady (σ : System) : Prop where
  halted : σ.halted = false
  acceptor : σ.acceptor = .dumping
  closing : σ.service.closingMutex = none
  mutex : ∀ p, σ.service.mutex p = none

theorem dumpStep_eq {s s' : Service} {a a' : Acceptor} {x : AcceptorInput} (w : ℕ → Worker)
    (hin : a.inDump = true) (h : a.step false x s = some (s', a')) :
    System.dumpStep ⟨s, a, w, false⟩ x = some ⟨s', a', w, false⟩ := by
  simp only [System.dumpStep, hin, if_true, System.step, Bool.false_eq_true, if_false, h,
    Option.map_some]

/-- One round of the loop closes the front, or it is the last one. -/
theorem System.DumpReady.round {σ : System} (h : σ.DumpReady) (x : AcceptorInput) :
    ∃ k σ', Transition.run System.dumpStep σ (List.replicate k x) = some σ' ∧
      (σ'.acceptor = .counting ∨ σ'.DumpReady ∧
        σ'.service.timeod.nodes.length < σ.service.timeod.nodes.length) := by
  obtain ⟨s, a, w, halted⟩ := σ
  obtain ⟨hhalt, hacc, hclosing, hmutex⟩ := h
  dsimp only at hhalt hacc hclosing hmutex
  subst hhalt hacc
  cases hf : s.timeod.front with
  | none =>
    have h1 : Acceptor.step false x s .dumping = some (s, .counting) := by rw [Acceptor.step, hf]
    refine ⟨1, ⟨s, .counting, w, false⟩, ?_, .inl rfl⟩
    simp only [List.replicate, Transition.run, dumpStep_eq w rfl h1, Option.bind_some]
  | some m =>
    obtain ⟨n, p⟩ := m
    have h1 : Acceptor.step false x s .dumping = some (s, .scanning p) := by
      rw [Acceptor.step, hf]
    by_cases hexp : (s.conn p).valid = true ∧ s.timedOut p = true
    · let t := s.setMutex p (some .acceptor)
      have h2 : Acceptor.step false x s (.scanning p) = some (t, .closing p) := by
        rw [Acceptor.step, if_pos (hmutex p), if_pos hexp]
      let u := { t.scanClose p false with closingMutex := some .acceptor }
      have h3 : Acceptor.step false x t (.closing p) = some (u, .halfClosed p) := by
        have ht : t.closingMutex = none := hclosing
        rw [Acceptor.step, if_pos ht]
      let v := { (u.scanClose p true).setMutex p none with closingMutex := none }
      have h4 : Acceptor.step false x u (.halfClosed p) = some (v, .popping p) := rfl
      have h5 : Acceptor.step false x v (.popping p) =
          some ({ v with timeod := v.timeod.popFront }, .dumping) := rfl
      refine ⟨5, ⟨{ v with timeod := v.timeod.popFront }, .dumping, w, false⟩, ?_,
        .inr ⟨⟨rfl, rfl, rfl, fun q => ?_⟩, ?_⟩⟩
      · simp only [List.replicate, Transition.run, dumpStep_eq w rfl h1, dumpStep_eq w rfl h2,
          dumpStep_eq w rfl h3, dumpStep_eq w rfl h4, dumpStep_eq w rfl h5, Option.bind_some]
      · have hv : Service.mutex v q = if q = p then none else Service.mutex u q :=
          setMutex_mutex _ _ _ _
        have hu : Service.mutex u q = t.mutex q := setConn_mutex _ _ _ _
        change Service.mutex v q = none
        rw [hv, hu, setMutex_mutex, hmutex]
        split_ifs <;> rfl
      · obtain ⟨rest, hrest⟩ := List.head?_eq_some_iff.mp hf
        change s.timeod.nodes.tail.length < _
        rw [hrest, List.tail_cons, List.length_cons]
        exact Nat.lt_succ_self _
    · have h2 : Acceptor.step false x s (.scanning p) = some (s, .counting) := by
        rw [Acceptor.step, if_pos (hmutex p), if_neg hexp]
      refine ⟨2, ⟨s, .counting, w, false⟩, ?_, .inl rfl⟩
      simp only [List.replicate, Transition.run, dumpStep_eq w rfl h1, dumpStep_eq w rfl h2,
        Option.bind_some]

/-- With the locks free the scan comes to its end. -/
theorem scan_ends {σ : System} (h : σ.DumpReady) (x : AcceptorInput) :
    ∃ k σ', Transition.run System.dumpStep σ (List.replicate k x) = some σ' ∧
      σ'.acceptor = .counting := by
  induction hn : σ.service.timeod.nodes.length using Nat.strong_induction_on generalizing σ with
  | _ n ih =>
    rcases h.round x with ⟨k, σ₁, hrun, hend | ⟨hready, hlt⟩⟩
    · exact ⟨k, σ₁, hrun, hend⟩
    obtain ⟨k', σ₂, hrun', hend⟩ := ih _ (hn ▸ hlt) hready rfl
    refine ⟨k + k', σ₂, ?_, hend⟩
    rw [List.replicate_add, Transition.run_append, hrun, Option.bind_some, hrun']

/-- The scan ends when the locks are free, and it leaves no expired connection exactly when
those that have expired are reported, as is whatever stands in front of them in the list. -/
theorem scan_complete_iff (σ : System) :
    (σ.DumpReady → ∃ xs σ', Transition.run System.dumpStep σ xs = some σ' ∧
      σ'.acceptor = .counting) ∧
    ∀ (σ' : System) (xs : List AcceptorInput), σ.acceptor = .dumping →
      Transition.run System.dumpStep σ xs = some σ' → σ'.acceptor = .counting →
        (σ'.service.Swept ↔ σ.service.ExpiredFirst) := by
  refine ⟨fun h => ?_, fun σ' xs hacc hrun hend => ?_⟩
  · obtain ⟨k, σ', hrun, hend⟩ := scan_ends h ⟨true, .empty⟩
    exact ⟨_, σ', hrun, hend⟩
  · obtain ⟨done, rest, hsplit, hc, hrest⟩ := scan_closes hacc hrun hend
    exact swept_iff hsplit hc hrest

/-- The listening socket times out, so the acceptor goes on to the scan. -/
def idleTimeout : Act := .acceptor ⟨false, .empty⟩

def scans (n : ℕ) : List AcceptorInput := List.replicate n ⟨true, .empty⟩

/-- A client is left alone for half a minute. -/
def quietRun : List Act := accepts 8 ++ [.clock 30000000000, idleTimeout]

theorem scan_complete_quiet : ∃ σ σ', (System.start 20 60).run quietRun = some σ ∧
    Transition.run System.dumpStep σ (scans 6) = some σ' ∧ σ.service.Expired 0 ∧
      σ'.service.Swept := by
  have hrun : ((System.start 20 60).run quietRun).map
      (fun σ => decide (σ.acceptor = .dumping ∧ σ.service.Expired 0 ∧ σ.service.Reported 0 ∧
        σ.service.size = 1 ∧ σ.service.timeod.elems = [0])) = some true := by
    decide +kernel
  obtain ⟨σ, hσ, hpoint⟩ := Option.map_eq_some_iff.mp hrun
  obtain ⟨hacc, hexp, hrep, hsize, helems⟩ := of_decide_eq_true hpoint
  have hscan : (((System.start 20 60).run quietRun).bind fun σ =>
      Transition.run System.dumpStep σ (scans 6)).map System.acceptor = some .counting := by
    decide +kernel
  rw [hσ, Option.bind_some] at hscan
  obtain ⟨σ', hσ', hend⟩ := Option.map_eq_some_iff.mp hscan
  refine ⟨σ, σ', hσ, hσ', hexp, ((scan_complete_iff σ).2 σ' _ hacc hσ' hend).mpr ?_⟩
  intro q hq _
  obtain rfl : q = 0 := by omega
  exact ⟨hrep, [], [], helems, List.nodup_nil, by simp⟩

/-- Two clients; the second one is accepted while a worker serves the end of the first one's
stream, and the worker closes the first one, whose node stays in front. -/
def zombieRun : List Act :=
  accepts 8 ++ [.raise 0 ⟨0, 0, true, false⟩] ++ works 0 3 ++ accepts 5 ++
    reads 0 (oneRead []) [] ++ works 0 4 ++ accepts 3 ++ [.clock 30000000000, idleTimeout]

/-- The scan stops at the place that the worker has closed, and the other client, idle for
longer than its limit, stays open. -/
theorem zombie_left : ∃ σ σ', (System.start 20 60).run zombieRun = some σ ∧
    Transition.run System.dumpStep σ (scans 2) = some σ' ∧ σ.acceptor = .dumping ∧
      σ'.acceptor = .counting ∧ 1 < σ'.service.size ∧ σ'.service.Expired 1 := by
  have hrun : ((System.start 20 60).run zombieRun).map (fun σ => σ.acceptor) = some .dumping := by
    decide +kernel
  obtain ⟨σ, hσ, hacc⟩ := Option.map_eq_some_iff.mp hrun
  have hscan : (((System.start 20 60).run zombieRun).bind fun σ =>
      Transition.run System.dumpStep σ (scans 2)).map
        (fun σ => decide (σ.acceptor = .counting ∧ 1 < σ.service.size ∧ σ.service.Expired 1)) =
      some true := by
    decide +kernel
  rw [hσ, Option.bind_some] at hscan
  obtain ⟨σ', hσ', hend⟩ := Option.map_eq_some_iff.mp hscan
  exact ⟨σ, σ', hσ, hσ', hacc, of_decide_eq_true hend⟩

end Sphere.Http
