import Sphere.Proc.Process

/-! Which process the `kill` of `close` is sent to. -/

namespace Sphere.Proc

open Lib.Transition

/-- An object with the pids it has forked and not yet reaped. -/
structure Tracked where
  process : Process
  own : List ℕ
  deriving DecidableEq, Repr

namespace Tracked

def reap (own : List ℕ) : WaitResult → List ℕ
  | .exited pid => own.filter (· ≠ pid)
  | _ => own

def track (own : List ℕ) (e : Event) : List ℕ :=
  match e.waited, e with
  | some w, _ => reap own w
  | none, .fork (some pid) => pid :: own
  | none, _ => own

def step (t : Tracked) (e : Event) : Option Tracked :=
  (t.process.step e).map fun o => ⟨o, track t.own e⟩

/-- An object whose constructor has returned. -/
def constructed (pid : ℕ) (out inp : ℤ) : Tracked :=
  ⟨{ cpid := pid, readFromChild := ⟨out⟩, writeToChild := ⟨inp⟩, phase := .ready }, [pid]⟩

/-- A `kill` names a child of the object that it has not reaped. -/
def Signals (t : Tracked) : Event → Prop
  | .kill _ => 0 < t.process.cpid ∧ ∃ pid ∈ t.own, t.process.cpid = (pid : ℤ)
  | _ => True

instance (t : Tracked) (e : Event) : Decidable (t.Signals e) := by
  unfold Signals
  split <;> infer_instance

end Tracked

/-- Whether the last `fork` has given a child, and returned in the parent, and no `waitpid`
has reported the child since. -/
def armed (was : Bool) (e : Event) : Bool :=
  match e.waited, e with
  | some (.exited _), _ => false
  | some _, _ => was
  | none, .fork pid => pid.isSome
  | none, .born => false
  | none, _ => was

/-- Nothing is closed or destroyed but between a `fork` that succeeds and the `waitpid`
that reports its child. -/
def ClosesArmed : Bool → List Event → Prop
  | _, [] => True
  | was, e :: es => (∀ ok, e = .kill ok → was = true) ∧ ClosesArmed (armed was e) es

namespace Tracked

/-- The child id is that of a live child exactly while the history says so. -/
structure Follows (was : Bool) (t : Tracked) : Prop where
  own_pos : ∀ pid ∈ t.own, 0 < pid
  cpid : was = true ↔ ∃ pid ∈ t.own, t.process.cpid = (pid : ℤ)

theorem follows_constructed {pid : ℕ} (hpid : 0 < pid) (out inp : ℤ) :
    Follows true (constructed pid out inp) :=
  ⟨by simpa [constructed] using hpid, by simp [constructed]⟩

theorem Follows.signals_iff {was : Bool} {t : Tracked} (h : Follows was t) (e : Event) :
    t.Signals e ↔ ∀ ok, e = .kill ok → was = true := by
  constructor
  · rintro hs ok rfl
    exact h.cpid.mpr hs.2
  · intro hw
    cases e with
    | kill ok =>
      obtain ⟨pid, hpid, hc⟩ := h.cpid.mp (hw ok rfl)
      have hpos := h.own_pos pid hpid
      exact ⟨by omega, pid, hpid, hc⟩
    | _ => trivial

/-- A child that is reported is the one of the child id, unless the id is -1. -/
theorem Follows.reap {was : Bool} {o o' : Process} {own : List ℕ} {w : WaitResult}
    (h : Follows was ⟨o, own⟩) (hw : Process.Reports o.cpid w) (ho : o'.cpid = o.cpid) :
    Follows (match w with | .exited _ => false | _ => was) ⟨o', Tracked.reap own w⟩ := by
  obtain ⟨hpos, hc⟩ := h
  cases w with
  | exited q =>
    refine ⟨fun pid hpid => hpos pid (List.mem_of_mem_filter hpid), ?_⟩
    refine ⟨fun hf => by simp at hf, fun ⟨pid, hpid, hcpid⟩ => ?_⟩
    obtain ⟨hown, hne⟩ := List.mem_filter.mp hpid
    have hpid_pos := hpos pid hown
    have hpid_ne : pid ≠ q := by simpa using hne
    dsimp only at hcpid
    rcases hw with ⟨-, hm | hq⟩ <;> omega
  | running => exact ⟨hpos, by dsimp only; rw [ho]; exact hc⟩
  | error => exact ⟨hpos, by dsimp only; rw [ho]; exact hc⟩

theorem Follows.step {was : Bool} {t t' : Tracked} {e : Event} (h : Follows was t)
    (hstep : t.step e = some t') : Follows (armed was e) t' := by
  obtain ⟨o, own⟩ := t
  obtain ⟨o', ho, rfl⟩ := Option.map_eq_some_iff.mp hstep
  obtain ⟨w, hw, hr, hc⟩ | ⟨rfl, hc⟩ | ⟨rfl, hc⟩ | ⟨pid, rfl, hpos, hc⟩ | ⟨⟨hw, hb, hf⟩, hc⟩ :=
    Process.step_cpid ho
  · have hreap := h.reap hr hc
    simp only [armed, track, hw]
    cases w <;> exact hreap
  · refine ⟨h.own_pos, ⟨fun hf => by simp [armed, Event.waited] at hf, ?_⟩⟩
    rintro ⟨pid, -, hpid⟩
    dsimp only at hpid
    omega
  · refine ⟨h.own_pos, ⟨fun hf => by simp [armed, Event.waited] at hf, ?_⟩⟩
    rintro ⟨pid, hown, hpid⟩
    have hpos := h.own_pos pid hown
    dsimp only at hpid
    omega
  · refine ⟨fun q hq => ?_, ⟨fun _ => ⟨pid, List.mem_cons_self, hc⟩, fun _ => rfl⟩⟩
    rcases List.mem_cons.mp hq with rfl | hq
    · exact hpos
    · exact h.own_pos q hq
  · have harmed : armed was e = was := by
      unfold armed
      rw [hw]
      cases e with
      | fork r => exact absurd rfl (hf r)
      | born => exact absurd rfl hb
      | _ => rfl
    have htrack : track own e = own := by
      unfold track
      rw [hw]
      cases e with
      | fork r => exact absurd rfl (hf r)
      | _ => rfl
    rw [harmed, htrack]
    refine ⟨h.own_pos, ?_⟩
    dsimp only
    rw [hc]
    exact h.cpid

theorem Follows.along_iff {was : Bool} {t t' : Tracked} {es : List Event} (h : Follows was t)
    (hrun : run Tracked.step t es = some t') :
    Along Tracked.step Signals t es ↔ ClosesArmed was es := by
  induction es generalizing was t with
  | nil => exact Iff.rfl
  | cons e es ih =>
    obtain ⟨s, hstep, hrun⟩ := run_cons_some hrun
    have ih := ih (h.step hstep) hrun
    simp only [Along, hstep, Option.elim, ClosesArmed]
    rw [h.signals_iff e, ih]

end Tracked

/-- In every run of calls of a constructed object with the results its system calls may
have, each `kill` names a live child of the object if and only if nothing is closed or
destroyed without one. -/
theorem kill_own_child_iff (pid : ℕ) (hpid : 0 < pid) (out inp : ℤ) (es : List Event)
    (t : Tracked) (hrun : run Tracked.step (Tracked.constructed pid out inp) es = some t) :
    Along Tracked.step Tracked.Signals (Tracked.constructed pid out inp) es ↔
      ClosesArmed true es :=
  (Tracked.follows_constructed hpid out inp).along_iff hrun

/-- The child is closed once and the object opened again. -/
theorem kill_own_child_reopened :
    Along Tracked.step Tracked.Signals (Tracked.constructed 5 3 4)
      [.isRunning .running, .close, .kill true, .wait (.exited 5), .open, .probe .error,
        .pipes (some (3, 4)), .fork (some 6), .destroy, .kill true] := by
  have hrun : (run Tracked.step (Tracked.constructed 5 3 4)
      [.isRunning .running, .close, .kill true, .wait (.exited 5), .open, .probe .error,
        .pipes (some (3, 4)), .fork (some 6), .destroy, .kill true]).isSome := by decide
  obtain ⟨t, ht⟩ := Option.isSome_iff_exists.mp hrun
  exact (kill_own_child_iff 5 (by decide) 3 4 _ t ht).mpr
    ⟨by simp, by simp, fun _ _ => rfl, by simp, by simp, by simp, by simp, by simp, by simp,
      fun _ _ => rfl, trivial⟩

/-- A closed object that is destroyed sends a signal to a pid it has already reaped, one
whose second `fork` failed to -1, and the copy of a static object in a child that cannot run
its program to the whole process group. -/
theorem kill_other_process :
    ((run Tracked.step (Tracked.constructed 5 3 4)
        [.close, .kill true, .wait (.exited 5), .destroy]).map
        fun t => (t.process.phase, t.process.cpid, t.own)) = some (.killing true, 5, []) ∧
    ((run Tracked.step (Tracked.constructed 5 3 4)
        [.isRunning (.exited 5), .open, .probe .error, .pipes (some (3, 4)), .fork none,
          .destroy]).map
        fun t => (t.process.phase, t.process.cpid, t.own)) = some (.killing true, -1, []) ∧
    ((run Tracked.step (Tracked.constructed 5 3 4)
        [.isRunning (.exited 5), .open, .probe .error, .pipes (some (3, 4)), .born,
          .dup2 false true, .dup2 true true, .execv false, .exit true]).map
        fun t => (t.process.phase, t.process.cpid, t.own)) = some (.killing true, 0, []) ∧
    ¬ Along Tracked.step Tracked.Signals (Tracked.constructed 5 3 4)
        [.close, .kill true, .wait (.exited 5), .destroy, .kill false] := by
  decide

end Sphere.Proc
