import Sphere.Http.ClosedQueue

/-! Events and the places they name, in every run of `HttpService`: no event names a
place that does not exist, and a worker that holds the mutex of a place has an event of
it in hand. -/

namespace Sphere.Http

open Lib Net SlotPool

/-- Epoll does not know the connection at place `p` and no worker has an event of it. -/
def System.Unnamed (σ : System) (p : ℕ) : Prop :=
  (σ.service.conn p).watch = .absent ∧ ∀ i, ∀ e ∈ (σ.worker i).events, e.place ≠ p

structure System.Named (σ : System) : Prop where
  closes : σ.Closes
  unnamed : ∀ p, σ.service.size ≤ p → σ.Unnamed p
  owned : ∀ p i, σ.service.mutex p = some (.worker i) →
    ∃ e es, (σ.worker i).events = e :: es ∧ e.place = p

/-- A worker that takes a step names no new places. -/
theorem System.Unnamed.worker {σ : System} {i p : ℕ} {x : Input} {s : Service} {w : Worker}
    {out : Bool} (h : σ.Unnamed p) (hstep : (σ.worker i).step i x σ.service = some (s, w, out)) :
    System.Unnamed { σ with service := s, worker := Function.update σ.worker i w, halted := out }
      p := by
  refine ⟨((Worker.step_move hstep).settles p).watch h.1, fun j e he => ?_⟩
  by_cases hj : j = i
  · subst hj
    simp only [Function.update_self] at he
    exact h.2 j e ((Worker.step_move hstep).events e he)
  · simp only [Function.update_of_ne hj] at he
    exact h.2 j e he

/-- An event names the place it was raised for, and that place was watched. -/
theorem System.Unnamed.raise {σ : System} {i p : ℕ} {e : Event} {s : Service} {w : Worker}
    (h : σ.Unnamed p) (hw : w.events = (σ.worker i).events ++ [e])
    (hs : σ.service.raise e = some s) :
    System.Unnamed { σ with service := s, worker := Function.update σ.worker i w } p := by
  unfold Service.raise at hs
  split at hs
  · rename_i opt hwatch
    split at hs <;> cases hs
    have hne : p ≠ e.place := by
      rintro rfl
      exact absurd (h.1.symm.trans hwatch) (by simp)
    refine ⟨?_, fun j e' he' => ?_⟩
    · rw [show System.service _ = _ from rfl, setConn_conn, if_neg hne]
      exact h.1
    · by_cases hj : j = i
      · subst hj
        simp only [Function.update_self, hw, List.mem_append, List.mem_singleton] at he'
        obtain he' | rfl := he'
        · exact h.2 j e' he'
        · exact hne.symm
      · simp only [Function.update_of_ne hj] at he'
        exact h.2 j e' he'
  · cases hs

theorem Acceptor.step_size {pf : Bool} {x : AcceptorInput} {s s' : Service} {a a' : Acceptor}
    (h : a.step pf x s = some (s', a')) : s.size ≤ s'.size := by
  have hclose : ∀ p push, (s.scanClose p push).size = s.size := fun p push => by
    cases push <;> rfl
  cases a with
  | emplacing id => cases h; exact Nat.le_succ _
  | popped p => cases h; exact (relink_only s p x.stray).size.ge
  | closing p =>
    simp only [Acceptor.step] at h
    split at h <;> cases h
    exact (hclose p pf).ge
  | halfClosed p => cases h; exact (hclose p !pf).ge
  | accepted id =>
    simp only [Acceptor.step] at h
    split_ifs at h
    split at h <;> cases h <;> exact le_rfl
  | scanning p =>
    simp only [Acceptor.step] at h
    split_ifs at h <;> cases h <;> exact le_rfl
  | idle | dumping | counting =>
    simp only [Acceptor.step] at h
    split at h <;> cases h
    all_goals exact le_rfl
  | _ => cases h; exact le_rfl

/-- The acceptor gives no mutex to a worker. -/
theorem Acceptor.step_mutex {pf : Bool} {x : AcceptorInput} {s s' : Service} {a a' : Acceptor}
    {q i : ℕ} (h : a.step pf x s = some (s', a')) (hq : s'.mutex q = some (.worker i)) :
    s.mutex q = some (.worker i) := by
  have hset : ∀ {t : Service} {p : ℕ} {o : Option Thread}, (∀ q, t.mutex q = s.mutex q) →
      o ≠ some (.worker i) → (t.setMutex p o).mutex q = some (.worker i) →
      s.mutex q = some (.worker i) := by
    intro t p o ht ho hq
    rw [setMutex_mutex] at hq
    split at hq
    · exact absurd hq ho
    · rwa [ht] at hq
  have hconn : ∀ p (c : HttpConnection), (s.setConn p c).mutex q = some (.worker i) →
      s.mutex q = some (.worker i) := fun p c hq => by rwa [setConn_mutex] at hq
  have hclose : ∀ p push q, (s.scanClose p push).mutex q = s.mutex q := fun p push q => by
    cases push with
    | false => exact setConn_mutex ..
    | true => rfl
  cases a with
  | accepted id =>
    simp only [Acceptor.step] at h
    split_ifs at h
    split at h <;> cases h
    · exact hq
    · exact hconn _ _ hq
  | popped p => cases h; exact ((relink_only s p x.stray).mutex q).symm.trans hq
  | emplacing id => cases h; exact hconn _ _ hq
  | emplaced p => cases h; exact ((linkBack_only s p).mutex q).symm.trans hq
  | placed p => cases h; exact hconn _ _ hq
  | scanning p =>
    simp only [Acceptor.step] at h
    split_ifs at h <;> cases h
    · exact hset (fun _ => rfl) (by simp) hq
    · exact hq
  | closing p =>
    simp only [Acceptor.step] at h
    split at h <;> cases h
    exact (hclose p pf q).symm.trans hq
  | halfClosed p => cases h; exact hset (hclose p _) (by simp) hq
  | idle | dumping | counting =>
    simp only [Acceptor.step] at h
    split at h <;> cases h
    all_goals exact hq
  | _ => cases h; exact hq

theorem System.Named.acceptorStep {σ : System} {x : AcceptorInput} {s : Service} {a : Acceptor}
    (h : σ.Named) (hstep : σ.acceptor.step false x σ.service = some (s, a))
    (hc : System.Closes { σ with service := s, acceptor := a }) :
    System.Named { σ with service := s, acceptor := a } := by
  refine ⟨hc, fun p hp => ?_, fun p i hp => h.owned p i (Acceptor.step_mutex hstep hp)⟩
  have hold := h.unnamed p ((Acceptor.step_size hstep).trans hp)
  have hclosed : (σ.service.conn p).valid = false := by
    rw [← Bool.not_eq_true]
    intro hv
    exact absurd (h.closes.pool.opened p hv) (not_lt.mpr ((Acceptor.step_size hstep).trans hp))
  exact ⟨(Acceptor.step_carries hstep h.closes.pool p).watch hclosed hold.1, hold.2⟩

theorem System.Named.workerStep {σ : System} {i : ℕ} {x : Input} {s : Service} {w : Worker}
    {out : Bool} (h : σ.Named) (hstep : (σ.worker i).step i x σ.service = some (s, w, out))
    (hc : System.Closes { σ with service := s, worker := Function.update σ.worker i w,
                                 halted := out }) :
    System.Named { σ with service := s, worker := Function.update σ.worker i w,
                          halted := out } := by
  have hmove := Worker.step_move hstep
  refine ⟨hc, fun p hp => (h.unnamed p (hmove.size ▸ hp)).worker hstep, fun p j hp => ?_⟩
  obtain ⟨rfl, hown⟩ | ⟨hj, hold⟩ := hmove.owned (h.owned · i) hp
  · simpa using hown
  · simpa [hj] using h.owned p j hold

theorem System.Named.raiseStep {σ : System} {i : ℕ} {e : Event} {s : Service} {w : Worker}
    (h : σ.Named) (hw : w.events = (σ.worker i).events ++ [e]) (hs : σ.service.raise e = some s)
    (hc : System.Closes { σ with service := s, worker := Function.update σ.worker i w }) :
    System.Named { σ with service := s, worker := Function.update σ.worker i w } := by
  have hu := (raise_same hs).1
  refine ⟨hc, fun p hp => (h.unnamed p (hu.size ▸ hp)).raise hw hs, fun p j hp => ?_⟩
  obtain ⟨e', es, he, hplace⟩ := h.owned p j ((hu.mutex p).symm.trans hp)
  by_cases hj : j = i
  · subst hj
    exact ⟨e', es ++ [e], by simp [hw, he], hplace⟩
  · exact ⟨e', es, by simp [hj, he], hplace⟩

theorem System.Named.step {σ σ' : System} {a : Act} (h : σ.Named) (hstep : σ.step a = some σ') :
    σ'.Named := by
  have hc := h.closes.step hstep
  unfold System.step at hstep
  split at hstep
  · cases hstep
  · cases a with
    | acceptor x =>
      obtain ⟨⟨s, a⟩, hs, rfl⟩ := Option.map_eq_some_iff.mp hstep
      exact h.acceptorStep hs hc
    | worker i x =>
      obtain ⟨⟨s, w, out⟩, hs, rfl⟩ := Option.map_eq_some_iff.mp hstep
      exact h.workerStep hs hc
    | clock t =>
      cases hstep
      exact ⟨hc, h.unnamed, h.owned⟩
    | raise i e =>
      simp only at hstep
      split at hstep
      · obtain ⟨s, hs, rfl⟩ := Option.map_eq_some_iff.mp hstep
        exact h.raiseStep rfl hs hc
      · cases hstep

theorem System.start_named (connTimeo kaConnTimeo : ℕ) :
    (System.start connTimeo kaConnTimeo).Named := by
  refine ⟨System.start_closes _ _, fun p _ => ⟨rfl, ?_⟩, fun p i hp => ?_⟩
  · intro i e he
    cases he
  · cases hp

end Sphere.Http
