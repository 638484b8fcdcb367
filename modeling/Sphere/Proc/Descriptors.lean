import Sphere.Lib.Custody
import Sphere.Proc.Process

/-! Any number of `Descriptor` objects, which `prc` and `tcp` have alike, over the numbers
that the kernel gives out and takes back. -/

namespace Sphere.Proc

open Lib.Custody

namespace Descriptor

def invalidate (_ : Descriptor) : Descriptor := ⟨-1⟩

/-- The number that the object will close. -/
def number (d : Descriptor) : Option ℤ := if d.valid then some d.fd else none

end Descriptor

/-- The objects by their addresses, and the numbers that were opened and closed. -/
structure Memory where
  objects : ℕ → Option Descriptor
  events : List (Lib.Custody.Event ℤ)

inductive Call
  | default (p : ℕ)
  | construct (p : ℕ) (fd : ℤ)
  | moveConstruct (p other : ℕ)
  | moveAssign (p other : ℕ)
  | setFd (p : ℕ) (fd : ℤ)
  | close (p : ℕ)
  | destroy (p : ℕ)
  deriving DecidableEq, Repr

namespace Memory

def start : Memory := ⟨fun _ => none, []⟩

def put (m : Memory) (p : ℕ) (d : Descriptor) : Memory :=
  { m with objects := Function.update m.objects p (some d) }

def erase (m : Memory) (p : ℕ) : Memory :=
  { m with objects := Function.update m.objects p none }

/-- A number as the kernel gives it out, which is not open, or a negative one as it answers
when it fails. -/
def Fresh (m : Memory) (fd : ℤ) : Prop := -1 < fd → Home m.events fd

instance (m : Memory) (fd : ℤ) : Decidable (m.Fresh fd) :=
  inferInstanceAs (Decidable (_ → _))

/-- The caller has the number from the kernel before it gives it to an object. -/
def opened (m : Memory) (fd : ℤ) : Memory :=
  if -1 < fd then { m with events := m.events ++ [.taken fd] } else m

/-- `Descriptor::close` -/
def close (m : Memory) (p : ℕ) (d : Descriptor) : Memory :=
  if d.valid then { m.put p d.close with events := m.events ++ [.returned d.fd] } else m

def step (m : Memory) : Call → Option Memory
  | .default p => if m.objects p = none then some (m.put p {}) else none
  | .construct p fd =>
    if m.objects p = none ∧ m.Fresh fd then some ((m.opened fd).put p ⟨fd⟩) else none
  | .moveConstruct p q =>
    if m.objects p = none then
      (m.objects q).map fun other => (m.put p ⟨other.fd⟩).put q other.invalidate
    else none
  | .moveAssign p q =>
    (m.objects p).bind fun d =>
      let m := m.close p d
      -- `other` is read behind `close`, and may be the same object
      (m.objects q).map fun other => (m.put p ⟨other.fd⟩).put q other.invalidate
  | .setFd p fd =>
    (m.objects p).bind fun d =>
      if m.Fresh fd then some (((m.opened fd).close p d).put p (d.setFd fd)) else none
  | .close p => (m.objects p).map fun d => m.close p d
  | .destroy p => (m.objects p).map fun d => (m.close p d).erase p

/-- The number that a place holds: an object's, or what the caller has at hand, which is
nothing between two calls. -/
def held (m : Memory) (i : Option ℕ) : Option ℤ :=
  i.bind fun p => (m.objects p).bind Descriptor.number

theorem held_put (m : Memory) (p : ℕ) (d : Descriptor) :
    (m.put p d).held = Function.update m.held (some p) d.number := by
  funext i
  cases i with
  | none => rfl
  | some q =>
    by_cases hq : q = p
    · subst hq
      simp [held, put]
    · simp [held, put, hq]

theorem held_erase (m : Memory) (p : ℕ) :
    (m.erase p).held = Function.update m.held (some p) none := by
  funext i
  cases i with
  | none => rfl
  | some q =>
    by_cases hq : q = p
    · subst hq
      simp [held, erase]
    · simp [held, erase, hq]

theorem number_close (d : Descriptor) : d.close.number = none := by
  unfold Descriptor.close
  split_ifs with h
  · rfl
  · exact if_neg h

theorem number_mk (fd : ℤ) : (⟨fd⟩ : Descriptor).number = if -1 < fd then some fd else none := by
  unfold Descriptor.number Descriptor.valid
  simp only [decide_eq_true_eq]

theorem opened_events (m : Memory) (fd : ℤ) : (m.opened fd).events =
    m.events ++ (⟨fd⟩ : Descriptor).number.elim [] fun n => [.taken n] := by
  rw [number_mk]
  unfold opened
  split_ifs
  · rfl
  · exact (List.append_nil _).symm

theorem opened_objects (m : Memory) (fd : ℤ) : (m.opened fd).objects = m.objects := by
  unfold opened
  split_ifs <;> rfl

theorem opened_held (m : Memory) (fd : ℤ) : (m.opened fd).held = m.held := by
  unfold opened
  split_ifs <;> rfl

theorem close_events (m : Memory) (p : ℕ) (d : Descriptor) : (m.close p d).events =
    m.events ++ d.number.elim [] fun n => [.returned n] := by
  unfold close Descriptor.number
  split_ifs
  · rfl
  · exact (List.append_nil _).symm

variable {m m' : Memory} {p : ℕ} {d : Descriptor}

theorem held_of (hd : m.objects p = some d) : m.held (some p) = d.number := by
  simp [held, hd]

theorem held_of_none (hp : m.objects p = none) : m.held (some p) = none := by
  simp [held, hp]

theorem close_held (hd : m.objects p = some d) :
    (m.close p d).held = Function.update m.held (some p) none := by
  unfold close
  split_ifs with h
  · exact (held_put m p d.close).trans (by rw [number_close])
  · have hnone : m.held (some p) = none := (held_of hd).trans (if_neg h)
    exact (update_none hnone).symm

/-! Each call moves numbers as a custody does. -/

/-- The caller has a number from the kernel at hand. -/
theorem opened_leads {fd : ℤ} (h : m.Fresh fd) :
    Leads m.held m.events (Function.update m.held none (⟨fd⟩ : Descriptor).number)
      (m.opened fd).events := by
  rw [opened_events]
  refine Leads.take rfl _ fun n hn => ?_
  rw [number_mk, Option.ite_none_right_eq_some] at hn
  obtain rfl := Option.some.inj hn.2
  exact h hn.1

/-- What the caller has at hand goes to an object that has nothing. -/
theorem give_leads {held : Option ℕ → Option ℤ} (hnone : held none = none)
    (hp : held (some p) = none) (o : Option ℤ) (events : List (Lib.Custody.Event ℤ)) :
    Leads (Function.update held none o) events (Function.update held (some p) o) events := by
  have hempty : Function.update held none o (some p) = none := by
    rw [Function.update_of_ne (by simp), hp]
  have hpass := Leads.pass events none hempty
  rwa [Function.update_self, Function.update_idem, update_none hnone] at hpass

theorem close_leads (hd : m.objects p = some d) :
    Leads m.held m.events (m.close p d).held (m.close p d).events := by
  rw [close_events, close_held hd, ← held_of hd]
  exact Leads.clear m.held m.events (some p)

/-- An object that has nothing is given what another one has. -/
theorem move_leads (hp : m.held (some p) = none) {q : ℕ} {other : Descriptor}
    (hq : m.objects q = some other) :
    Leads m.held m.events ((m.put p ⟨other.fd⟩).put q other.invalidate).held m.events := by
  have hmove := Leads.pass m.events (some q) hp
  have hheld : ((m.put p ⟨other.fd⟩).put q other.invalidate).held =
      Function.update (Function.update m.held (some q) none) (some p) (m.held (some q)) := by
    have hcopy : (⟨other.fd⟩ : Descriptor).number = m.held (some q) := (held_of hq).symm
    rw [held_put, held_put, hcopy]
    by_cases hqp : q = p
    · subst hqp
      simp [hp, Descriptor.invalidate, number_mk]
    · rw [Function.update_comm (by simpa using Ne.symm hqp)]
      rfl
  rwa [hheld]

theorem step_leads {c : Call} (h : m.step c = some m') :
    Leads m.held m.events m'.held m'.events := by
  cases c with
  | default p =>
    obtain ⟨hp, h⟩ := Option.ite_none_right_eq_some.mp h
    obtain rfl := Option.some.inj h
    have hheld : (m.put p {}).held = m.held := by
      rw [held_put]
      exact update_none (held_of_none hp)
    rw [hheld]
    exact Leads.refl m.held m.events
  | construct p fd =>
    obtain ⟨⟨hp, hfd⟩, h⟩ := Option.ite_none_right_eq_some.mp h
    obtain rfl := Option.some.inj h
    have hheld : ((m.opened fd).put p ⟨fd⟩).held =
        Function.update m.held (some p) (⟨fd⟩ : Descriptor).number := by
      rw [held_put, opened_held]
    rw [hheld]
    exact (opened_leads hfd).trans (give_leads rfl (held_of_none hp) _ _)
  | moveConstruct p q =>
    obtain ⟨hp, h⟩ := Option.ite_none_right_eq_some.mp h
    obtain ⟨other, hq, rfl⟩ := Option.map_eq_some_iff.mp h
    exact move_leads (held_of_none hp) hq
  | moveAssign p q =>
    obtain ⟨d, hd, h⟩ := Option.bind_eq_some_iff.mp h
    obtain ⟨other, hq, rfl⟩ := Option.map_eq_some_iff.mp h
    refine (close_leads hd).trans (move_leads ?_ hq)
    rw [close_held hd, Function.update_self]
  | setFd p fd =>
    obtain ⟨d, hd, h⟩ := Option.bind_eq_some_iff.mp h
    obtain ⟨hfd, h⟩ := Option.ite_none_right_eq_some.mp h
    obtain rfl := Option.some.inj h
    have hd' : (m.opened fd).objects p = some d := (opened_objects m fd).symm ▸ hd
    have hclosed := close_held hd'
    rw [opened_held] at hclosed
    have hheld : (((m.opened fd).close p d).put p (d.setFd fd)).held =
        Function.update (Function.update m.held (some p) none) (some p)
          (⟨fd⟩ : Descriptor).number := by
      rw [held_put, hclosed]
      rfl
    rw [hheld]
    refine ((opened_leads hfd).trans ?_).trans (give_leads rfl (Function.update_self ..) _ _)
    have hclear := Leads.clear (Function.update m.held none (⟨fd⟩ : Descriptor).number)
      (m.opened fd).events (some p)
    rw [Function.update_of_ne (by simp), held_of hd, ← close_events (m.opened fd) p d,
      Function.update_comm (by simp)] at hclear
    exact hclear
  | close p =>
    obtain ⟨d, hd, rfl⟩ := Option.map_eq_some_iff.mp h
    exact close_leads hd
  | destroy p =>
    obtain ⟨d, hd, rfl⟩ := Option.map_eq_some_iff.mp h
    have hheld : ((m.close p d).erase p).held = (m.close p d).held := by
      rw [held_erase, close_held hd, Function.update_idem]
    rw [hheld]
    exact close_leads hd

theorem run_leads {calls : List Call} (h : Lib.Transition.run step m calls = some m') :
    Leads m.held m.events m'.held m'.events :=
  Lib.Transition.run_preserves (I := fun s => Leads m.held m.events s.held s.events)
    (fun _ _ _ hleads hstep => hleads.trans (step_leads hstep)) (Leads.refl m.held m.events) h

/-- In every run the objects hold what some custody says. -/
theorem run_custody {calls : List Call} (h : Lib.Transition.run step start calls = some m) :
    ∃ c : Register ℤ (Option ℕ), Kept c ∧ Agrees m.held c ∧ c.events = m.events := by
  have hagrees : Agrees Memory.start.held (Lib.Custody.start : Register ℤ (Option ℕ)) := by
    rintro (- | p) n
    · simp [held, Lib.Custody.start]
    · simp [held, Memory.start, Lib.Custody.start]
  obtain ⟨ms, c, hrun, hc, hevents⟩ := run_leads h Lib.Custody.start kept_start hagrees rfl
  exact ⟨c, run_kept kept_start hrun, hc, hevents⟩

/-- The object at the address has the valid number. -/
def Holds (m : Memory) (p : ℕ) (n : ℤ) : Prop :=
  ∃ d, m.objects p = some d ∧ d.valid ∧ d.fd = n

theorem holds_iff {n : ℤ} : m.Holds p n ↔ m.held (some p) = some n := by
  unfold Holds held Descriptor.number
  simp [Option.bind_eq_some_iff]

theorem descriptors_linear {calls : List Call}
    (h : Lib.Transition.run step start calls = some m) :
    (∀ p q n, m.Holds p n → m.Holds q n → p = q) ∧
    Orderly m.events ∧
    (∀ p n, m.Holds p n → Out m.events n) ∧
    ((∀ p, m.objects p = none) →
      ∀ n, m.events.count (.returned n) = m.events.count (.taken n)) ∧
    -- a number that the kernel does not give out again
    ∀ n, m.events.count (.taken n) ≤ 1 →
      m.events.count (.returned n) ≤ 1 ∧ (.returned n ∈ m.events → ∀ p, ¬ m.Holds p n) := by
  obtain ⟨c, hkept, hagrees, hevents⟩ := run_custody h
  have hout : ∀ p n, m.Holds p n → Out m.events n := by
    intro p n hp
    rw [← hevents]
    exact hkept.out ((hagrees _ n).mp (holds_iff.mp hp))
  refine ⟨?_, hevents ▸ hkept.orderly, hout, ?_, ?_⟩
  · intro p q n hp hq
    have hpn := (hagrees _ n).mp (holds_iff.mp hp)
    have hqn := (hagrees _ n).mp (holds_iff.mp hq)
    exact Option.some.inj (Option.some.inj (hpn.symm.trans hqn))
  · intro hgone n
    have howner : c.owner n = none := by
      rw [Option.eq_none_iff_forall_ne_some]
      rintro (- | p) hp
      · exact nomatch (hagrees none n).mpr hp
      · rw [← hagrees (some p) n, held_of_none (hgone p)] at hp
        cases hp
    have hhome := hkept.home howner
    rw [hevents] at hhome
    exact hhome.symm
  · intro n hn
    have hbalance := hkept.balance n
    rw [hevents] at hbalance
    refine ⟨by omega, fun hreturned p hp => ?_⟩
    have hmem := List.count_pos_iff.mpr hreturned
    have houtn := hout p n hp
    unfold Out at houtn
    omega

/-- One object is assigned to a full one and another to itself, and a number comes again. -/
theorem descriptors_linear_assigned :
    ∃ m, Lib.Transition.run step start [.construct 0 3, .construct 1 4, .moveAssign 0 1,
        .setFd 1 3, .moveAssign 1 1, .setFd 1 5, .close 1] = some m ∧
      m.events = [.taken 3, .taken 4, .returned 3, .taken 3, .returned 3, .taken 5,
        .returned 5] ∧
      m.Holds 0 4 ∧ Out m.events 4 := by
  have hevents : (Lib.Transition.run step start [.construct 0 3, .construct 1 4, .moveAssign 0 1,
      .setFd 1 3, .moveAssign 1 1, .setFd 1 5, .close 1]).map Memory.events =
      some [.taken 3, .taken 4, .returned 3, .taken 3, .returned 3, .taken 5, .returned 5] := by
    decide
  have hobjects : (Lib.Transition.run step start [.construct 0 3, .construct 1 4, .moveAssign 0 1,
      .setFd 1 3, .moveAssign 1 1, .setFd 1 5, .close 1]).bind (fun m => m.objects 0) =
      some ⟨4⟩ := by
    decide
  obtain ⟨m, hrun, hd⟩ := Option.bind_eq_some_iff.mp hobjects
  rw [hrun] at hevents
  have hholds : m.Holds 0 4 := ⟨⟨4⟩, hd, rfl, rfl⟩
  exact ⟨m, hrun, Option.some.inj hevents, hholds,
    (descriptors_linear hrun).2.2.1 0 4 hholds⟩

end Memory
end Sphere.Proc
