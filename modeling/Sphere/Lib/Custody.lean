import Sphere.Lib.Transition

/-! Resources in the custody of at most one holder each: they are taken, passed on and given
back. Holders that say what they hold agree with a custody. -/

namespace Lib.Custody

theorem update_none {α ι : Type*} [DecidableEq ι] {held : ι → Option α} {i : ι}
    (hi : held i = none) : Function.update held i none = held := by
  rw [← hi, Function.update_eq_self]

variable {α ι : Type*} [DecidableEq α]

inductive Event (α : Type*)
  | taken (a : α)
  | returned (a : α)
  deriving DecidableEq, Repr

/-- The resource is with somebody: it has been taken once more than it has been given back. -/
def Out (events : List (Event α)) (a : α) : Prop :=
  events.count (.taken a) = events.count (.returned a) + 1

def Home (events : List (Event α)) (a : α) : Prop :=
  events.count (.taken a) = events.count (.returned a)

instance (events : List (Event α)) (a : α) : Decidable (Home events a) :=
  inferInstanceAs (Decidable (_ = _))

/-- Only what is home is taken, and only what is out is given back. -/
structure Orderly (events : List (Event α)) : Prop where
  taken : ∀ before a after, events = before ++ .taken a :: after → Home before a
  returned : ∀ before a after, events = before ++ .returned a :: after → Out before a

/-- Who has each resource, and what has happened to all of them. -/
structure Register (α ι : Type*) where
  owner : α → Option ι
  events : List (Event α)

inductive Move (α ι : Type*)
  | take (a : α) (i : ι)
  | pass (a : α) (i j : ι)
  | giveBack (a : α) (i : ι)

/-- Nobody holds anything. -/
def start : Register α ι := ⟨fun _ => none, []⟩

def step [DecidableEq ι] (c : Register α ι) : Move α ι → Option (Register α ι)
  | .take a i =>
    if c.owner a = none then
      some ⟨Function.update c.owner a (some i), c.events ++ [.taken a]⟩
    else none
  | .pass a i j =>
    if c.owner a = some i then some ⟨Function.update c.owner a (some j), c.events⟩ else none
  | .giveBack a i =>
    if c.owner a = some i then
      some ⟨Function.update c.owner a none, c.events ++ [.returned a]⟩
    else none

/-! What the events say of a custody. -/

/-- What is behind an event in a list that one event is added to: nothing, or some of it. -/
theorem snoc_eq_append_cons {β : Type*} {l before after : List β} {e f : β}
    (h : l ++ [e] = before ++ f :: after) :
    (l = before ∧ e = f) ∨ ∃ rest, l = before ++ f :: rest := by
  rcases List.eq_nil_or_concat after with rfl | ⟨rest, b, rfl⟩
  · have hsnoc := List.append_inj' h rfl
    exact .inl ⟨hsnoc.1, List.cons.inj hsnoc.2 |>.1⟩
  · rw [List.concat_eq_append, ← List.cons_append, ← List.append_assoc] at h
    exact .inr ⟨rest, (List.append_inj' h rfl).1⟩

theorem Orderly.nil : Orderly ([] : List (Event α)) :=
  ⟨by simp, by simp⟩

theorem Orderly.take {events : List (Event α)} (h : Orderly events) {a : α} (ha : Home events a) :
    Orderly (events ++ [.taken a]) := by
  refine ⟨fun before b after heq => ?_, fun before b after heq => ?_⟩
  · rcases snoc_eq_append_cons heq with ⟨rfl, he⟩ | ⟨rest, hrest⟩
    · cases he
      exact ha
    · exact h.taken before b rest hrest
  · rcases snoc_eq_append_cons heq with ⟨-, he⟩ | ⟨rest, hrest⟩
    · cases he
    · exact h.returned before b rest hrest

theorem Orderly.giveBack {events : List (Event α)} (h : Orderly events) {a : α}
    (ha : Out events a) : Orderly (events ++ [.returned a]) := by
  refine ⟨fun before b after heq => ?_, fun before b after heq => ?_⟩
  · rcases snoc_eq_append_cons heq with ⟨-, he⟩ | ⟨rest, hrest⟩
    · cases he
    · exact h.taken before b rest hrest
  · rcases snoc_eq_append_cons heq with ⟨rfl, he⟩ | ⟨rest, hrest⟩
    · cases he
      exact ha
    · exact h.returned before b rest hrest

structure Kept (c : Register α ι) : Prop where
  orderly : Orderly c.events
  balance : ∀ a, c.events.count (.taken a) =
    c.events.count (.returned a) + (c.owner a).elim 0 fun _ => 1

theorem Kept.home {c : Register α ι} (h : Kept c) {a : α} (ha : c.owner a = none) :
    Home c.events a := by
  have hbalance := h.balance a
  rwa [ha] at hbalance

theorem Kept.out {c : Register α ι} (h : Kept c) {a : α} {i : ι} (ha : c.owner a = some i) :
    Out c.events a := by
  have hbalance := h.balance a
  rwa [ha] at hbalance

theorem Kept.owner_eq_none {c : Register α ι} (h : Kept c) {a : α} (ha : Home c.events a) :
    c.owner a = none := by
  cases howner : c.owner a with
  | none => rfl
  | some i =>
    have hout := h.out howner
    unfold Home at ha
    unfold Out at hout
    omega

theorem kept_start : Kept (start : Register α ι) := ⟨Orderly.nil, fun _ => rfl⟩

variable [DecidableEq ι]

theorem step_kept {c c' : Register α ι} {m : Move α ι} (hc : Kept c) (h : step c m = some c') :
    Kept c' := by
  cases m with
  | take a i =>
    obtain ⟨ha, h⟩ := Option.ite_none_right_eq_some.mp h
    obtain rfl := Option.some.inj h
    refine ⟨hc.orderly.take (hc.home ha), fun b => ?_⟩
    have hbalance := hc.balance b
    by_cases hba : b = a
    · subst hba
      simpa [ha] using hbalance
    · simpa [hba, Ne.symm hba] using hbalance
  | pass a i j =>
    obtain ⟨ha, h⟩ := Option.ite_none_right_eq_some.mp h
    obtain rfl := Option.some.inj h
    refine ⟨hc.orderly, fun b => ?_⟩
    have hbalance := hc.balance b
    by_cases hba : b = a
    · subst hba
      simpa [ha] using hbalance
    · simpa [hba] using hbalance
  | giveBack a i =>
    obtain ⟨ha, h⟩ := Option.ite_none_right_eq_some.mp h
    obtain rfl := Option.some.inj h
    refine ⟨hc.orderly.giveBack (hc.out ha), fun b => ?_⟩
    have hbalance := hc.balance b
    by_cases hba : b = a
    · subst hba
      simpa [ha] using hbalance
    · simpa [hba, Ne.symm hba] using hbalance

theorem run_kept {c c' : Register α ι} {ms : List (Move α ι)} (hc : Kept c)
    (h : Transition.run step c ms = some c') : Kept c' :=
  Transition.run_preserves (fun _ _ _ hc hs => step_kept hc hs) hc h

/-! Holders. -/

/-- What the holders say they hold is what the custody has them hold. -/
def Agrees (held : ι → Option α) (c : Register α ι) : Prop :=
  ∀ i a, held i = some a ↔ c.owner a = some i

variable {held : ι → Option α} {c : Register α ι}

theorem Agrees.take (h : Agrees held c) {a : α} {i : ι} (ha : c.owner a = none)
    (hi : held i = none) :
    ∃ c', step c (.take a i) = some c' ∧ c'.events = c.events ++ [.taken a] ∧
      Agrees (Function.update held i (some a)) c' := by
  refine ⟨_, if_pos ha, rfl, fun j b => ?_⟩
  have hj := h j b
  simp only [Function.update_apply]
  split_ifs with hji hba hba
  · simp [hji, hba]
  · subst hji
    rw [← hj, hi]
    simp [Ne.symm hba]
  · subst hba
    rw [hj, ha]
    simp [Ne.symm hji]
  · exact hj

theorem Agrees.giveBack (h : Agrees held c) {a : α} {i : ι} (hi : held i = some a) :
    ∃ c', step c (.giveBack a i) = some c' ∧ c'.events = c.events ++ [.returned a] ∧
      Agrees (Function.update held i none) c' := by
  have ha := (h i a).mp hi
  refine ⟨_, if_pos ha, rfl, fun j b => ?_⟩
  have hj := h j b
  simp only [Function.update_apply]
  split_ifs with hji hba hba
  · rfl
  · subst hji
    rw [← hj, hi]
    simp [Ne.symm hba]
  · subst hba
    rw [hj, ha]
    simp [Ne.symm hji]
  · exact hj

theorem Agrees.pass (h : Agrees held c) {a : α} {i j : ι} (hi : held i = some a)
    (hj : held j = none) :
    ∃ c', step c (.pass a i j) = some c' ∧ c'.events = c.events ∧
      Agrees (Function.update (Function.update held i none) j (some a)) c' := by
  have ha := (h i a).mp hi
  refine ⟨_, if_pos ha, rfl, fun l b => ?_⟩
  have hl := h l b
  simp only [Function.update_apply]
  split_ifs with hlj hba hli hba hba
  · simp [hlj, hba]
  · subst hlj
    rw [← hl, hj]
    simp [Ne.symm hba]
  · simp [Ne.symm hlj]
  · subst hli
    rw [← hl, hi]
    simp [Ne.symm hba]
  · subst hba
    rw [hl, ha]
    simp [Ne.symm hlj, Ne.symm hli]
  · exact hl

/-- Some moves bring holders, and what has happened, from the one to the other. -/
def Leads (held : ι → Option α) (events : List (Event α)) (held' : ι → Option α)
    (events' : List (Event α)) : Prop :=
  ∀ c : Register α ι, Kept c → Agrees held c → c.events = events →
    ∃ ms c', Transition.run step c ms = some c' ∧ Agrees held' c' ∧ c'.events = events'

namespace Leads

variable {held' held'' : ι → Option α} {events events' events'' : List (Event α)}

theorem refl (held : ι → Option α) (events : List (Event α)) : Leads held events held events :=
  fun c _ hagrees hevents => ⟨[], c, rfl, hagrees, hevents⟩

theorem trans (h : Leads held events held' events') (h' : Leads held' events' held'' events'') :
    Leads held events held'' events'' := by
  intro c hc hagrees hevents
  obtain ⟨ms, c₁, hrun, hagrees₁, hevents₁⟩ := h c hc hagrees hevents
  obtain ⟨ms', c₂, hrun', hagrees₂, hevents₂⟩ := h' c₁ (run_kept hc hrun) hagrees₁ hevents₁
  refine ⟨ms ++ ms', c₂, ?_, hagrees₂, hevents₂⟩
  rw [Transition.run_append, hrun]
  exact hrun'

theorem of_step {held held' : ι → Option α} {events new : List (Event α)}
    (h : ∀ c : Register α ι, Kept c → Agrees held c → c.events = events →
      ∃ m c', step c m = some c' ∧ c'.events = c.events ++ new ∧ Agrees held' c') :
    Leads held events held' (events ++ new) := by
  intro c hc hagrees hevents
  obtain ⟨m, c', hstep, hnew, hagrees'⟩ := h c hc hagrees hevents
  refine ⟨[m], c', ?_, hagrees', by rw [hnew, hevents]⟩
  rw [Transition.run, hstep]
  rfl

/-- A holder that has nothing takes something, or nothing. -/
theorem take {i : ι} (hi : held i = none) (o : Option α) (ho : ∀ a, o = some a → Home events a) :
    Leads held events (Function.update held i o)
      (events ++ o.elim [] fun a => [.taken a]) := by
  cases o with
  | none =>
    rw [update_none hi, Option.elim_none, List.append_nil]
    exact refl held events
  | some a =>
    refine of_step fun c hc hagrees hevents => ⟨.take a i, ?_⟩
    have ha := ho a rfl
    rw [← hevents] at ha
    exact hagrees.take (hc.owner_eq_none ha) hi

/-- A holder gives back what it has, if it has anything. -/
theorem clear (held : ι → Option α) (events : List (Event α)) (i : ι) :
    Leads held events (Function.update held i none)
      (events ++ (held i).elim [] fun a => [.returned a]) := by
  cases hi : held i with
  | none =>
    rw [update_none hi, Option.elim_none, List.append_nil]
    exact refl held events
  | some a => exact of_step fun c _ hagrees _ => ⟨.giveBack a i, hagrees.giveBack hi⟩

/-- A holder passes what it has, if it has anything, to one that has nothing. -/
theorem pass (events : List (Event α)) (i : ι) {j : ι} (hj : held j = none) :
    Leads held events (Function.update (Function.update held i none) j (held i)) events := by
  cases hi : held i with
  | none =>
    rw [update_none hi, update_none hj]
    exact refl held events
  | some a =>
    have hstep : Leads held events (Function.update (Function.update held i none) j (some a))
        (events ++ []) := by
      refine of_step fun c _ hagrees _ => ?_
      obtain ⟨c', hc', hevents, hheld⟩ := hagrees.pass hi hj
      exact ⟨.pass a i j, c', hc', by rw [hevents, List.append_nil], hheld⟩
    rwa [List.append_nil] at hstep

end Leads
end Lib.Custody
