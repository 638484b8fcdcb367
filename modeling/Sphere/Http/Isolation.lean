import Sphere.Http.Events

/-! Connections that follow each other in one place. An event carries the place, so a
worker that has fetched it applies it to whatever connection the place has by then.
While a closed place is used again only once every event fetched for it has been
finished, each event meets the connection it was raised for. -/

namespace Sphere.Http

open Lib Net

/-- A closed place is used again only while no worker has an event for it. -/
def ReusesIdle (σ : System) : Act → Prop
  | .acceptor _ => (∃ id, σ.acceptor = .accepted id) →
    ∀ p ∈ σ.service.closed.head?, ∀ i, ∀ e ∈ (σ.worker i).events, e.place ≠ p
  | _ => True

/-- A step in which each event that a worker has is of the connection its place has, the
places under a worker's mutex keep their connections, and a worker changes only the
connection that the event in hand was raised for. -/
structure Isolates (σ : System) (a : Act) (σ' : System) : Prop where
  fetched : ∀ i, ∀ e ∈ (σ.worker i).events, (σ.service.conn e.place).id = e.conn
  held : ∀ p i, σ.service.mutex p = some (.worker i) →
    (σ'.service.conn p).id = (σ.service.conn p).id
  caused : ∀ i x, a = .worker i x → ∀ p, σ'.service.conn p ≠ σ.service.conn p →
    ∃ e es, (σ.worker i).events = e :: es ∧ e.place = p ∧ e.conn = (σ.service.conn p).id

structure System.Matched (σ : System) : Prop where
  named : σ.Named
  conn : ∀ i, ∀ e ∈ (σ.worker i).events, (σ.service.conn e.place).id = e.conn

/-- The places that events name keep their connections. -/
theorem System.Named.step_id {σ σ' : System} {a : Act} (h : σ.Named) (hm : ReusesIdle σ a)
    (hstep : σ.step a = some σ') {i : ℕ} {e : Event} (he : e ∈ (σ.worker i).events) :
    (σ'.service.conn e.place).id = (σ.service.conn e.place).id := by
  unfold System.step at hstep
  split at hstep
  · cases hstep
  · cases a with
    | acceptor x =>
      obtain ⟨⟨s, a⟩, hs, rfl⟩ := Option.map_eq_some_iff.mp hstep
      obtain hkept | ⟨hrenews, -⟩ := Acceptor.step_carries hs h.closes.pool e.place
      · exact hkept.id
      · obtain ⟨hreuse, hhead⟩ | hnew := hrenews
        · exact absurd rfl (hm hreuse e.place hhead i e he)
        · exact absurd rfl ((h.unnamed e.place hnew.ge).2 i e he)
    | worker j x =>
      obtain ⟨⟨s, w, out⟩, hs, rfl⟩ := Option.map_eq_some_iff.mp hstep
      exact Worker.step_id hs e.place
    | clock t =>
      cases hstep
      rfl
    | raise j e' =>
      simp only at hstep
      split at hstep
      · obtain ⟨s, hs, rfl⟩ := Option.map_eq_some_iff.mp hstep
        exact (raise_same hs).2 e.place
      · cases hstep

/-- Where the events after a step come from. -/
theorem System.step_events {σ σ' : System} {a : Act} (hstep : σ.step a = some σ') {i : ℕ}
    {e : Event} (he : e ∈ (σ'.worker i).events) :
    e ∈ (σ.worker i).events ∨
      e.conn = (σ.service.conn e.place).id ∧ (σ'.service.conn e.place).id = e.conn := by
  unfold System.step at hstep
  split at hstep
  · cases hstep
  · cases a with
    | acceptor x =>
      obtain ⟨⟨s, a⟩, hs, rfl⟩ := Option.map_eq_some_iff.mp hstep
      exact .inl he
    | worker j x =>
      obtain ⟨⟨s, w, out⟩, hs, rfl⟩ := Option.map_eq_some_iff.mp hstep
      by_cases hi : i = j
      · subst hi
        simp only [Function.update_self] at he
        exact .inl ((Worker.step_move hs).events e he)
      · simp only [Function.update_of_ne hi] at he
        exact .inl he
    | clock t =>
      cases hstep
      exact .inl he
    | raise j e' =>
      simp only at hstep
      split at hstep
      · obtain ⟨s, hs, rfl⟩ := Option.map_eq_some_iff.mp hstep
        have hid := (raise_same hs).2
        by_cases hi : i = j
        · subst hi
          simp only [Function.update_self, List.mem_append, List.mem_singleton] at he
          obtain he | rfl := he
          · exact .inl he
          · unfold Service.raise at hs
            split at hs
            · split at hs
              · rename_i hcond
                exact .inr ⟨hcond.1, (hid e.place).trans hcond.1.symm⟩
              · cases hs
            · cases hs
        · simp only [Function.update_of_ne hi] at he
          exact .inl he
      · cases hstep

theorem System.Matched.step {σ σ' : System} {a : Act} (h : σ.Matched) (hm : ReusesIdle σ a)
    (hstep : σ.step a = some σ') : σ'.Matched := by
  refine ⟨h.named.step hstep, fun i e he => ?_⟩
  obtain hold | ⟨-, hnew⟩ := System.step_events hstep he
  · exact (h.named.step_id hm hstep hold).trans (h.conn i e hold)
  · exact hnew

theorem System.Matched.isolates {σ σ' : System} {a : Act} (h : σ.Matched) (hm : ReusesIdle σ a)
    (hstep : σ.step a = some σ') : Isolates σ a σ' := by
  refine ⟨h.conn, fun p i hp => ?_, ?_⟩
  · obtain ⟨e, es, he, rfl⟩ := h.named.owned p i hp
    exact h.named.step_id hm hstep (i := i) (by simp [he])
  · rintro i x rfl p hp
    unfold System.step at hstep
    split at hstep
    · cases hstep
    · obtain ⟨⟨s, w, out⟩, hs, rfl⟩ := Option.map_eq_some_iff.mp hstep
      obtain ⟨e, es, he, rfl⟩ := (Worker.step_move hs).conn hp
      exact ⟨e, es, he, rfl, (h.conn i e (by simp [he])).symm⟩

theorem System.start_matched (connTimeo kaConnTimeo : ℕ) :
    (System.start connTimeo kaConnTimeo).Matched := by
  refine ⟨System.start_named _ _, fun i e he => ?_⟩
  cases he

/-- In every run in which a place is used again only when all its events are done with,
each step keeps successive connections apart. -/
theorem connections_isolated {connTimeo kaConnTimeo : ℕ} {as : List Act} {a : Act}
    {σ σ' : System}
    (hm : Transition.Along System.step ReusesIdle (System.start connTimeo kaConnTimeo) (as ++ [a]))
    (h : (System.start connTimeo kaConnTimeo).run as = some σ) (hstep : σ.step a = some σ') :
    Isolates σ a σ' := by
  obtain ⟨has, ha⟩ := hm.snoc h
  have hmatched : σ.Matched := Transition.run_invariant (I := System.Matched)
    (fun _ _ _ hi hm hs => hi.step hm hs) (System.start_matched _ _) has h
  exact hmatched.isolates ha hstep

/-- Only worker 0 is at work, and the queue is used while it has no event. -/
def alone (σ : System) : Act → Bool
  | .acceptor _ =>
    match σ.acceptor with
    | .accepted _ => (σ.worker 0).events.isEmpty
    | _ => true
  | .worker i _ | .raise i _ => i = 0
  | .clock _ => true

theorem alone_step {σ σ' : System} {a : Act} (h : ∀ i, i ≠ 0 → (σ.worker i).events = [])
    (ha : alone σ a = true) (hstep : σ.step a = some σ') (i : ℕ) (hi : i ≠ 0) :
    (σ'.worker i).events = [] := by
  unfold System.step at hstep
  split at hstep
  · cases hstep
  · cases a with
    | acceptor x =>
      obtain ⟨r, -, rfl⟩ := Option.map_eq_some_iff.mp hstep
      exact h i hi
    | worker j x =>
      obtain ⟨r, -, rfl⟩ := Option.map_eq_some_iff.mp hstep
      obtain rfl : j = 0 := by simpa [alone] using ha
      simpa [hi] using h i hi
    | clock t =>
      cases hstep
      exact h i hi
    | raise j e =>
      obtain rfl : j = 0 := by simpa [alone] using ha
      simp only at hstep
      split at hstep
      · obtain ⟨s, -, rfl⟩ := Option.map_eq_some_iff.mp hstep
        simpa [hi] using h i hi
      · cases hstep

theorem reusesIdle_of_alone {σ : System} {a : Act} (h : ∀ i, i ≠ 0 → (σ.worker i).events = [])
    (ha : alone σ a = true) : ReusesIdle σ a := by
  cases a with
  | acceptor x =>
    rintro ⟨id, hid⟩ p - i e he
    simp only [alone, hid, List.isEmpty_iff] at ha
    by_cases hi : i = 0
    · rw [hi, ha] at he
      cases he
    · rw [h i hi] at he
      cases he
  | _ => trivial

theorem connections_isolated_reuse :
    ∃ σ σ', (System.start 20 60).run (eofRun ++ accepts 1) = some σ ∧
      σ.step (.acceptor ⟨true, .empty⟩) = some σ' ∧ (σ.service.conn 0).id = 0 ∧
      (σ'.service.conn 0).id = 1 ∧ Isolates σ (.acceptor ⟨true, .empty⟩) σ' := by
  have hrun : ((System.start 20 60).run (eofRun ++ accepts 1)).map (fun σ =>
      ((σ.service.conn 0).id, (σ.step (.acceptor ⟨true, .empty⟩)).map fun σ' =>
        (σ'.service.conn 0).id)) = some (0, some 1) := by decide +kernel
  have halone : Transition.Along System.step (fun σ a => alone σ a = true) (System.start 20 60)
      (eofRun ++ accepts 1 ++ [.acceptor ⟨true, .empty⟩]) := by decide +kernel
  have hidle : Transition.Along System.step ReusesIdle (System.start 20 60)
      (eofRun ++ accepts 1 ++ [.acceptor ⟨true, .empty⟩]) :=
    halone.imp (fun _ _ _ h ha hs => alone_step h ha hs) (fun _ _ => reusesIdle_of_alone)
      fun i _ => rfl
  obtain ⟨σ, hσ, hq⟩ := Option.map_eq_some_iff.mp hrun
  obtain ⟨hold, hnext⟩ := Prod.mk.inj hq
  obtain ⟨σ', hσ', hnew⟩ := Option.map_eq_some_iff.mp hnext
  exact ⟨σ, σ', hσ, hσ', hold, hnew, connections_isolated hidle hσ hσ'⟩

/-- A worker fetches an event; the scan closes the connection, the next client gets its
place, and the worker takes up the event. -/
def lateRun : List Act :=
  accepts 8 ++ [.raise 0 ⟨0, 0, true, false⟩] ++ works 0 1 ++ [.clock 25000000000] ++
    [.acceptor ⟨false, .empty⟩] ++ accepts 15 ++ works 0 2

def lateInput : Input := { plainInput with script := ⟨[.data (oneRead (lit "GET"))], [], []⟩ }

theorem connections_mixed :
    ∃ σ σ', (System.start 20 60).run lateRun = some σ ∧ σ.step (.worker 0 lateInput) = some σ' ∧
      (σ.worker 0).events = [⟨0, 0, true, false⟩] ∧ (σ.service.conn 0).id = 1 ∧
      (σ.service.conn 0).read = [] ∧ (σ'.service.conn 0).read = lit "GET" ∧
      ¬ Isolates σ (.worker 0 lateInput) σ' := by
  have hrun : ((System.start 20 60).run lateRun).map (fun σ => ((σ.worker 0).events,
      (σ.service.conn 0).id, (σ.service.conn 0).read, (σ.step (.worker 0 lateInput)).map fun σ' =>
        (σ'.service.conn 0).read)) = some ([⟨0, 0, true, false⟩], 1, [], some (lit "GET")) := by
    decide +kernel
  obtain ⟨σ, hσ, hq⟩ := Option.map_eq_some_iff.mp hrun
  simp only [Prod.mk.injEq] at hq
  obtain ⟨hevents, hid, hread, hnext⟩ := hq
  obtain ⟨σ', hσ', hread'⟩ := Option.map_eq_some_iff.mp hnext
  refine ⟨σ, σ', hσ, hσ', hevents, hid, hread, hread', fun h => ?_⟩
  have hmatch := h.fetched 0 ⟨0, 0, true, false⟩ (by simp [hevents])
  exact absurd (hid.symm.trans hmatch) (by simp)

end Sphere.Http
