import Sphere.Proc.Inherited

/-! When a child comes to the end of its input, and the parent to the end of a child's output. -/

namespace Sphere.Proc

open Lib.FileTable Lib.Transition

namespace Kid.Sound

variable {c : Kid} {t : Table File}

theorem table (h : c.Sound) (ht : c.image = some t) (fd : ℕ) :
    t fd = if fd = 0 then (c.parent 0).map fun _ => ⟨.input c.opening .reader, false⟩
      else if fd = 1 then (c.parent 1).map fun _ => ⟨.output c.opening .writer, false⟩
      else if fd ∈ c.ends.list then none else (c.forked fd).filter (!·.cloexec) :=
  setup_table h.given h.input h.output (h.image t ht) fd

/-- Beside its own ends at 0 and 1 the program can write to inputs it shares. -/
theorem rest (h : c.Sound) (ht : c.image = some t) {fd : ℕ} (hfd : 1 < fd) {e : Entry File}
    (he : t fd = some e) : e.file = .other ∨ ∃ k ∈ c.shared, e.file = .input k .writer := by
  rw [h.table ht, if_neg (by omega), if_neg (by omega)] at he
  split_ifs at he with hmem
  obtain ⟨he, hopen⟩ := Option.filter_eq_some_iff.mp he
  rcases h.forked fd e he with hends | hother | ⟨k, rfl⟩ | ⟨k, hk, rfl⟩
  · exact absurd hends hmem
  · exact .inl hother
  · simp at hopen
  · exact .inr ⟨k, hk, rfl⟩

theorem zero (h : c.Sound) (ht : c.image = some t) :
    t 0 = (c.parent 0).map fun _ => ⟨.input c.opening .reader, false⟩ := by
  rw [h.table ht, if_pos rfl]

theorem one (h : c.Sound) (ht : c.image = some t) :
    t 1 = (c.parent 1).map fun _ => ⟨.output c.opening .writer, false⟩ := by
  rw [h.table ht, if_neg (by decide), if_pos rfl]

/-- The ends that a program is started with. -/
theorem cases (h : c.Sound) (ht : c.image = some t) {fd : ℕ} {e : Entry File}
    (he : t fd = some e) :
    (fd = 0 ∧ (c.parent 0).isSome ∧ e.file = .input c.opening .reader) ∨
    (fd = 1 ∧ (c.parent 1).isSome ∧ e.file = .output c.opening .writer) ∨
    (1 < fd ∧ (e.file = .other ∨ ∃ k ∈ c.shared, e.file = .input k .writer)) := by
  obtain rfl | rfl | hfd : fd = 0 ∨ fd = 1 ∨ 1 < fd := by omega
  · rw [h.zero ht] at he
    obtain ⟨d, hd, rfl⟩ := Option.map_eq_some_iff.mp he
    exact .inl ⟨rfl, by rw [hd]; rfl, rfl⟩
  · rw [h.one ht] at he
    obtain ⟨d, hd, rfl⟩ := Option.map_eq_some_iff.mp he
    exact .inr (.inl ⟨rfl, by rw [hd]; rfl, rfl⟩)
  · exact .inr (.inr ⟨hfd, h.rest ht hfd he⟩)

theorem has_input_writer (h : c.Sound) (ht : c.image = some t) (k : ℕ) :
    t.Has (.input k .writer) ↔ k ∈ c.shared := by
  constructor
  · rintro ⟨fd, e, he, hf⟩
    rcases h.cases ht he with ⟨-, -, hf'⟩ | ⟨-, -, hf'⟩ | ⟨-, hf' | ⟨k', hk', hf'⟩⟩
    · rw [hf] at hf'; simp at hf'
    · rw [hf] at hf'; simp at hf'
    · rw [hf] at hf'; simp at hf'
    · rw [hf] at hf'
      simp only [File.input.injEq, and_true] at hf'
      exact hf' ▸ hk'
  · intro hk
    obtain ⟨fd, hfd, hmem, he⟩ := h.shared k hk
    refine ⟨fd, ⟨.input k .writer, false⟩, ?_, rfl⟩
    rw [h.table ht, if_neg (by omega), if_neg (by omega), if_neg hmem, he]
    rfl

theorem has_input_reader (h : c.Sound) (ht : c.image = some t) (k : ℕ) :
    t.Has (.input k .reader) ↔ c.opening = k ∧ (c.parent 0).isSome := by
  constructor
  · rintro ⟨fd, e, he, hf⟩
    rcases h.cases ht he with ⟨-, hopen, hf'⟩ | ⟨-, -, hf'⟩ | ⟨-, hf' | ⟨k', -, hf'⟩⟩
    · rw [hf] at hf'
      simp only [File.input.injEq, and_true] at hf'
      exact ⟨hf'.symm, hopen⟩
    · rw [hf] at hf'; simp at hf'
    · rw [hf] at hf'; simp at hf'
    · rw [hf] at hf'; simp at hf'
  · rintro ⟨rfl, hopen⟩
    obtain ⟨d, hd⟩ := Option.isSome_iff_exists.mp hopen
    exact ⟨0, _, (h.zero ht).trans (congrArg _ hd), rfl⟩

theorem has_output_writer (h : c.Sound) (ht : c.image = some t) (k : ℕ) :
    t.Has (.output k .writer) ↔ c.opening = k ∧ (c.parent 1).isSome := by
  constructor
  · rintro ⟨fd, e, he, hf⟩
    rcases h.cases ht he with ⟨-, -, hf'⟩ | ⟨-, hopen, hf'⟩ | ⟨-, hf' | ⟨k', -, hf'⟩⟩
    · rw [hf] at hf'; simp at hf'
    · rw [hf] at hf'
      simp only [File.output.injEq, and_true] at hf'
      exact ⟨hf'.symm, hopen⟩
    · rw [hf] at hf'; simp at hf'
    · rw [hf] at hf'; simp at hf'
  · rintro ⟨rfl, hopen⟩
    obtain ⟨d, hd⟩ := Option.isSome_iff_exists.mp hopen
    exact ⟨1, _, (h.one ht).trans (congrArg _ hd), rfl⟩

theorem not_has_output_reader (h : c.Sound) (ht : c.image = some t) (k : ℕ) :
    ¬ t.Has (.output k .reader) := by
  rintro ⟨fd, e, he, hf⟩
  rcases h.cases ht he with ⟨-, -, hf'⟩ | ⟨-, -, hf'⟩ | ⟨-, hf' | ⟨k', -, hf'⟩⟩ <;>
    · rw [hf] at hf'; simp at hf'

theorem exited_not_has (h : c.Sound) (hx : c.exited = true) (f : File) : ¬ c.table.Has f := by
  rcases h.comes with ⟨-, hnone, -⟩ | ⟨hno, -⟩ | ⟨hno, -⟩
  · rintro ⟨fd, e, he, -⟩
    rw [hnone] at he
    cases he
  · rw [hx] at hno
    cases hno
  · rw [hx] at hno
    cases hno

end Kid.Sound

/-- The move is none of a program, nor of a process that a program has made. -/
def Move.quiet : Move → Bool
  | .acts .. | .others _ => false
  | _ => true

namespace Pipes

variable {σ σ' : Pipes}

/-- No process has this end open. -/
def Nobody (σ : Pipes) (f : File) : Prop :=
  ¬ σ.table.Has f ∧ (∀ c ∈ σ.kids, ¬ c.table.Has f) ∧ ∀ t ∈ σ.others, ¬ t.Has f

/-- The object's end is closed, or it is that of a pipe that nobody reads. -/
def WriteFails (σ : Pipes) (o : Object) : Prop :=
  ∀ k, o.inputOf σ.table = some k → σ.Nobody (.input k .reader)

/-- The object's end is that of a pipe that nobody writes to. -/
def ReadEnds (σ : Pipes) (o : Object) : Prop :=
  ∃ k, o.outputOf σ.table = some k ∧ σ.Nobody (.output k .writer)

/-- Every child that is there has come to its program. -/
def Settled (σ : Pipes) : Prop := ∀ c ∈ σ.kids, c.exited = false → c.image.isSome

instance (σ : Pipes) : Decidable σ.Settled := inferInstanceAs (Decidable (∀ c ∈ σ.kids, _))

/-- What is asked of the programs: of the pipes each one that runs has the ends that it was
started with, and the processes that they have made have none. -/
structure Kept (σ : Pipes) : Prop where
  kids : ∀ c ∈ σ.kids, c.exited = false → ∀ t, c.image = some t →
    ∀ f, f ≠ .other → (c.table.Has f ↔ t.Has f)
  others : ∀ t ∈ σ.others, ∀ f, f ≠ .other → ¬ t.Has f

theorem Holds.has_input_writer (h : σ.Holds) (k : ℕ) : σ.table.Has (.input k .writer) ↔
    ∃ o ∈ σ.objects, o.opening = some k ∧ o.writeToChild.valid = true := by
  constructor
  · rintro ⟨fd, e, he, hf⟩
    rcases h.files fd e he with hother | ⟨i, o, ho, k', hk', ⟨hfd, rfl⟩ | ⟨-, rfl⟩⟩
    · rw [hf] at hother; cases hother
    · obtain rfl : k' = k := by simpa using hf
      exact ⟨o, List.mem_of_getElem? ho, hk', (valid_iff _).mpr ⟨fd, hfd⟩⟩
    · cases hf
  · rintro ⟨o, ho, hk, hv⟩
    obtain ⟨i, ho⟩ := List.mem_iff_getElem?.mp ho
    obtain ⟨fd, hfd⟩ := (valid_iff _).mp hv
    obtain ⟨k', hk', htable⟩ := h.write i o fd ho hfd
    obtain rfl := Option.some.inj (hk.symm.trans hk')
    exact ⟨fd, _, htable, rfl⟩

theorem Holds.has_output_reader (h : σ.Holds) (k : ℕ) : σ.table.Has (.output k .reader) ↔
    ∃ o ∈ σ.objects, o.opening = some k ∧ o.readFromChild.valid = true := by
  constructor
  · rintro ⟨fd, e, he, hf⟩
    rcases h.files fd e he with hother | ⟨i, o, ho, k', hk', ⟨-, rfl⟩ | ⟨hfd, rfl⟩⟩
    · rw [hf] at hother; cases hother
    · cases hf
    · obtain rfl : k' = k := by simpa using hf
      exact ⟨o, List.mem_of_getElem? ho, hk', (valid_iff _).mpr ⟨fd, hfd⟩⟩
  · rintro ⟨o, ho, hk, hv⟩
    obtain ⟨i, ho⟩ := List.mem_iff_getElem?.mp ho
    obtain ⟨fd, hfd⟩ := (valid_iff _).mp hv
    obtain ⟨k', hk', htable⟩ := h.read i o fd ho hfd
    obtain rfl := Option.some.inj (hk.symm.trans hk')
    exact ⟨fd, _, htable, rfl⟩

/-- The parent keeps no end that is a child's. -/
theorem Holds.not_has (h : σ.Holds) (k : ℕ) :
    ¬ σ.table.Has (.input k .reader) ∧ ¬ σ.table.Has (.output k .writer) := by
  constructor
  all_goals
    rintro ⟨fd, e, he, hf⟩
    rcases h.files fd e he with hother | ⟨i, o, ho, k', hk', ⟨-, rfl⟩ | ⟨-, rfl⟩⟩
    · rw [hf] at hother; cases hother
    · cases hf
    · cases hf

/-- An end that each program is started with when a condition holds, apart from the parent. -/
theorem Sound.apart_iff (h : σ.Sound) (hs : σ.Settled) (hkept : σ.Kept) {f : File}
    (hf : f ≠ .other) {p : Kid → Prop}
    (hp : ∀ c ∈ σ.kids, ∀ t, c.image = some t → (t.Has f ↔ p c)) :
    ((∀ c ∈ σ.kids, ¬ c.table.Has f) ∧ ∀ t ∈ σ.others, ¬ t.Has f) ↔
      ∀ c ∈ σ.kids, c.exited = false → ¬ p c := by
  rw [and_iff_left fun t ht => hkept.others t ht f hf]
  refine forall₂_congr fun c hc => ?_
  cases hx : c.exited with
  | true => exact iff_of_true ((h.kids c hc).exited_not_has hx f) (by simp)
  | false =>
    obtain ⟨t, ht⟩ := Option.isSome_iff_exists.mp (hs c hc hx)
    rw [hkept.kids c hc hx t ht f hf, hp c hc t ht]
    simp

/-- A child that `open` makes shares the inputs that the parent's other objects can write to. -/
theorem Sound.forked_shares (h : σ.Sound) {i : ℕ} {r : Opening} {events : List Event}
    (hd : σ.doOpen i events r = some σ') {c : Kid} (hnew : σ'.kids = σ.kids ++ [c]) :
    (∃ o, σ'.objects[i]? = some o ∧ o.opening = some c.opening) ∧
    ∀ k, k ∈ c.shared ↔ k ≠ c.opening ∧
      ∃ o ∈ σ'.objects, o.opening = some k ∧ o.writeToChild.valid = true := by
  obtain ⟨o, ho, hd⟩ := Option.bind_eq_some_iff.mp hd
  obtain ⟨o', -, hd⟩ := Option.bind_eq_some_iff.mp hd
  have hlt : i < σ.objects.length := (List.getElem?_eq_some_iff.mp ho).1
  have hno : σ.kids ≠ σ.kids ++ [c] := by simp
  cases r with
  | running | noPipe =>
    obtain rfl := Option.some.inj hd
    exact absurd hnew hno
  | noFork f =>
    obtain ⟨-, hd⟩ := Option.ite_none_right_eq_some.mp hd
    obtain rfl := Option.some.inj hd
    exact absurd hnew hno
  | forked f pid =>
    obtain ⟨-, hd⟩ := Option.ite_none_right_eq_some.mp hd
    obtain rfl := Option.some.inj hd
    obtain rfl := List.singleton_inj.mp (List.append_cancel_left hnew)
    refine ⟨⟨_, List.getElem?_set_self hlt, rfl⟩, fun k => ?_⟩
    rw [h.mem_shared]
    constructor
    · rintro ⟨j, d, hj, hdj, hfd, hk⟩
      refine ⟨(h.lt j d k hdj hk).ne, d, ?_, hk, hfd⟩
      exact List.mem_of_getElem? ((List.getElem?_set_ne (Ne.symm hj)).trans hdj)
    · rintro ⟨hne, d, hmem, hk, hfd⟩
      obtain ⟨j, hdj⟩ := List.mem_iff_getElem?.mp hmem
      by_cases hj : j = i
      · subst hj
        rw [List.getElem?_set_self hlt] at hdj
        obtain rfl := Option.some.inj hdj
        exact absurd (Option.some.inj hk).symm hne
      · rw [List.getElem?_set_ne (Ne.symm hj)] at hdj
        exact ⟨j, d, hj, hdj, hfd, hk⟩

/-- What else a constructor that throws leaves. -/
theorem mem_disposed {i : ℕ} {o : Object} (ho : σ.objects[i]? = some o) {k : ℕ}
    (hk : o.opening ≠ some k) :
    (∃ d ∈ (σ.disposed i).objects, d.opening = some k ∧ d.writeToChild.valid = true) ↔
      ∃ d ∈ σ.objects, d.opening = some k ∧ d.writeToChild.valid = true := by
  have hlt : i < σ.objects.length := (List.getElem?_eq_some_iff.mp ho).1
  unfold Pipes.disposed
  rw [ho]
  dsimp only
  split_ifs
  · constructor
    · rintro ⟨d, hd, hdk, hfd⟩
      rcases List.mem_or_eq_of_mem_set hd with hd | rfl
      · exact ⟨d, hd, hdk, hfd⟩
      · exact absurd hdk hk
    · rintro ⟨d, hd, hdk, hfd⟩
      obtain ⟨j, hdj⟩ := List.mem_iff_getElem?.mp hd
      have hj : i ≠ j := by
        rintro rfl
        exact hk (Option.some.inj (ho.symm.trans hdj) ▸ hdk)
      exact ⟨d, List.mem_of_getElem? ((List.getElem?_set_ne hj).trans hdj), hdk, hfd⟩
  · exact Iff.rfl

theorem disposed_kids (σ : Pipes) (i : ℕ) :
    (σ.disposed i).kids = σ.kids ∧ (σ.disposed i).others = σ.others := by
  unfold Pipes.disposed
  split
  · split_ifs <;> exact ⟨rfl, rfl⟩
  · exact ⟨rfl, rfl⟩

/-- Of all steps it is `open`'s, called or in a constructor. -/
theorem Sound.step_shares (h : σ.Sound) {a : Move} (hstep : σ.step a = some σ') {c : Kid}
    (hnew : σ'.kids = σ.kids ++ [c]) (k : ℕ) : k ∈ c.shared ↔ k ≠ c.opening ∧
      ∃ o ∈ σ'.objects, o.opening = some k ∧ o.writeToChild.valid = true := by
  have hno : σ.kids ≠ σ.kids ++ [c] := by simp
  have hend {i : ℕ} {events : List Event} {t : Object → Table File}
      (hd : (σ.objects[i]?).bind (fun o => (o.goes events).map fun o' =>
        { σ with table := t o, objects := σ.objects.set i o' }) = some σ') : False := by
    obtain ⟨o, -, hd⟩ := Option.bind_eq_some_iff.mp hd
    obtain ⟨o', -, rfl⟩ := Option.map_eq_some_iff.mp hd
    exact hno hnew
  cases a with
  | construct w r =>
    obtain ⟨s, hd, rfl⟩ := Option.map_eq_some_iff.mp hstep
    rw [(disposed_kids _ _).1] at hnew
    have hblank : ({ σ with objects := σ.objects ++ [⟨{}, none⟩] } : Pipes).Sound :=
      ⟨h.blank, h.kids⟩
    obtain ⟨⟨o, ho, hopening⟩, hshares⟩ := hblank.forked_shares hd hnew
    rw [hshares]
    refine and_congr_right fun hne => (mem_disposed ho fun hk => hne ?_).symm
    exact (Option.some.inj (hopening.symm.trans hk)).symm
  | «open» i w r => exact (h.forked_shares hstep hnew).2 k
  | closeStdin i => exact (hend hstep).elim
  | close i w => exact (hend hstep).elim
  | destroy i w => exact (hend hstep).elim
  | opens fd cloexec =>
    obtain ⟨-, hs⟩ := Option.ite_none_right_eq_some.mp hstep
    obtain rfl := Option.some.inj hs
    exact absurd hnew hno
  | closes fd =>
    obtain ⟨-, hs⟩ := Option.ite_none_right_eq_some.mp hstep
    obtain rfl := Option.some.inj hs
    exact absurd hnew hno
  | call j | exit j | acts j t =>
    obtain rfl := Option.some.inj hstep
    have hlength := congrArg List.length hnew
    simp at hlength
  | others ts =>
    obtain rfl := Option.some.inj hstep
    exact absurd hnew hno

/-! A run in which no program does anything with its descriptors. -/

structure Untouched (σ : Pipes) : Prop where
  kids : ∀ c ∈ σ.kids, c.exited = false → ∀ t, c.image = some t → c.table = t
  others : σ.others = []

theorem Untouched.kept (h : σ.Untouched) : σ.Kept := by
  refine ⟨fun c hc hx t ht f _ => by rw [h.kids c hc hx t ht], fun t ht => ?_⟩
  rw [h.others] at ht
  cases ht

/-- `open` adds a child that has not come to its program, or none. -/
theorem Untouched.doOpen (h : σ.Untouched) {i : ℕ} {r : Opening} {events : List Event}
    (hd : σ.doOpen i events r = some σ') : σ'.Untouched := by
  obtain ⟨o, -, hd⟩ := Option.bind_eq_some_iff.mp hd
  obtain ⟨o', -, hd⟩ := Option.bind_eq_some_iff.mp hd
  cases r with
  | running | noPipe =>
    obtain rfl := Option.some.inj hd
    exact ⟨h.kids, h.others⟩
  | noFork f =>
    obtain ⟨-, hd⟩ := Option.ite_none_right_eq_some.mp hd
    obtain rfl := Option.some.inj hd
    exact ⟨h.kids, h.others⟩
  | forked f pid =>
    obtain ⟨-, hd⟩ := Option.ite_none_right_eq_some.mp hd
    obtain rfl := Option.some.inj hd
    refine ⟨fun c hc hx t ht => ?_, h.others⟩
    rcases List.mem_append.mp hc with hc | hc
    · exact h.kids c hc hx t ht
    · rw [List.mem_singleton.mp hc] at ht
      cases ht

theorem Untouched.next {c : Kid} (hsound : c.Sound)
    (h : c.exited = false → ∀ t, c.image = some t → c.table = t) :
    c.next.exited = false → ∀ t, c.next.image = some t → c.next.table = t := by
  unfold Kid.next
  cases htodo : c.todo with
  | nil => exact h
  | cons call todo =>
    dsimp only
    cases c.table.call call with
    | none => exact fun hx => absurd hx (by simp [Kid.exit])
    | some t =>
      dsimp only
      intro hx t' ht'
      split_ifs at ht' with hexec
      · exact Option.some.inj ht'
      · rcases hsound.comes with ⟨-, -, hnil⟩ | ⟨-, himage, -⟩ | ⟨-, -, hnil⟩
        · rw [htodo] at hnil
          cases hnil
        · rw [himage] at ht'
          cases ht'
        · rw [htodo] at hnil
          cases hnil

theorem Untouched.step (h : σ.Untouched) (hsound : σ.Sound) {a : Move} (hquiet : a.quiet = true)
    (hstep : σ.step a = some σ') : σ'.Untouched := by
  have hend {i : ℕ} {events : List Event} {t : Object → Table File}
      (hd : (σ.objects[i]?).bind (fun o => (o.goes events).map fun o' =>
        { σ with table := t o, objects := σ.objects.set i o' }) = some σ') : σ'.Untouched := by
    obtain ⟨o, -, hd⟩ := Option.bind_eq_some_iff.mp hd
    obtain ⟨o', -, rfl⟩ := Option.map_eq_some_iff.mp hd
    exact ⟨h.kids, h.others⟩
  have hkid (j : ℕ) (g : Kid → Kid) (hg : ∀ c ∈ σ.kids,
      (g c).exited = false → ∀ t, (g c).image = some t → (g c).table = t) :
      ({ σ with kids := σ.kids.modify j g } : Pipes).Untouched := by
    refine ⟨fun c hc => ?_, h.others⟩
    obtain ⟨n, hn⟩ := List.mem_iff_getElem?.mp hc
    rw [List.getElem?_modify] at hn
    obtain ⟨d, hd, rfl⟩ := Option.map_eq_some_iff.mp hn
    have hmem := List.mem_of_getElem? hd
    split_ifs
    · exact hg d hmem
    · exact h.kids d hmem
  cases a with
  | construct w r =>
    obtain ⟨s, hd, rfl⟩ := Option.map_eq_some_iff.mp hstep
    have hblank : ({ σ with objects := σ.objects ++ [⟨{}, none⟩] } : Pipes).Untouched :=
      ⟨h.kids, h.others⟩
    have hopened := hblank.doOpen hd
    obtain ⟨hkids, hothers⟩ := disposed_kids s σ.objects.length
    exact ⟨by rw [hkids]; exact hopened.kids, by rw [hothers]; exact hopened.others⟩
  | «open» i w r => exact h.doOpen hstep
  | closeStdin i => exact hend hstep
  | close i w => exact hend hstep
  | destroy i w => exact hend hstep
  | opens fd cloexec =>
    obtain ⟨-, hs⟩ := Option.ite_none_right_eq_some.mp hstep
    exact Option.some.inj hs ▸ ⟨h.kids, h.others⟩
  | closes fd =>
    obtain ⟨-, hs⟩ := Option.ite_none_right_eq_some.mp hstep
    exact Option.some.inj hs ▸ ⟨h.kids, h.others⟩
  | call j =>
    exact Option.some.inj hstep ▸ hkid j Kid.next fun c hc =>
      Untouched.next (hsound.kids c hc) (h.kids c hc)
  | exit j =>
    exact Option.some.inj hstep ▸ hkid j Kid.exit fun c _ hx => absurd hx (by simp [Kid.exit])
  | acts j t => cases hquiet
  | others ts => cases hquiet

/-- Programs that do nothing with their descriptors keep them. -/
theorem kept_of_quiet {fds : ℕ → Option Bool} {moves : List Move}
    (hrun : run Pipes.step (start fds) moves = some σ) (hquiet : ∀ a ∈ moves, a.quiet = true) :
    σ.Kept := by
  have hstart : (start fds).Sound ∧ (start fds).Untouched :=
    ⟨sound_start fds, ⟨by simp [start], rfl⟩⟩
  have hboth := run_invariant (I := fun s : Pipes => s.Sound ∧ s.Untouched)
    (fun s a s' hs hq hstep => ⟨hs.1.step hstep, hs.2.step hs.1 hq hstep⟩) hstart
    (Along.of_forall hquiet) hrun
  exact hboth.2.kept

end Pipes

/-- In every run, whatever the order of the children's calls: a program that is started has the
reader of its input at 0 and the writer of its output at 1, each of them unless the parent had
that number closed; of all other pipes it has the write ends of inputs only, and of those the
ones that the parent's other objects had by then. -/
theorem program_streams (fds : ℕ → Option Bool) (moves : List Move) (σ : Pipes)
    (hrun : run Pipes.step (Pipes.start fds) moves = some σ) :
    (∀ c ∈ σ.kids, ∀ t, c.image = some t →
      t 0 = ((c.parent 0).map fun _ => ⟨.input c.opening .reader, false⟩) ∧
      t 1 = ((c.parent 1).map fun _ => ⟨.output c.opening .writer, false⟩) ∧
      (∀ fd e, 1 < fd → t fd = some e →
        e.file = .other ∨ ∃ k ∈ c.shared, e.file = .input k .writer) ∧
      ∀ k ∈ c.shared, t.Has (.input k .writer)) ∧
    (∀ a σ' c, σ.step a = some σ' → σ'.kids = σ.kids ++ [c] → ∀ k,
      (k ∈ c.shared ↔ k ≠ c.opening ∧
        ∃ o ∈ σ'.objects, o.opening = some k ∧ o.writeToChild.valid = true)) := by
  have h := Pipes.Sound.reached hrun
  refine ⟨fun c hc t ht => ?_, fun a σ' c hstep hnew k => h.step_shares hstep hnew k⟩
  have hsound := h.kids c hc
  exact ⟨hsound.zero ht, hsound.one ht, fun fd e hfd he => hsound.rest ht hfd he,
    fun k hk => (hsound.has_input_writer ht k).mpr hk⟩

/-- 0, 1 and 2 are open. -/
def streams (fd : ℕ) : Option Bool := if fd < 3 then some false else none

/-- All that a child does before its program runs. -/
def sets (j : ℕ) : List Move := List.replicate 7 (.call j)

/-- The first object's child is gone when the second object is made, and the first one is opened
again while the second one's child runs. -/
def reopenRun : List Move :=
  .construct .error (.forked ⟨3, 4, 5, 6⟩ 100) :: sets 0 ++ [.exit 0] ++
    .construct (.exited 100) (.forked ⟨4, 5, 7, 8⟩ 101) :: sets 1 ++
    .open 0 .error (.forked ⟨5, 7, 9, 10⟩ 102) :: sets 2

/-- The last child's program has the second one's input. -/
theorem program_streams_reopen :
    ∃ σ, run Pipes.step (Pipes.start streams) reopenRun = some σ ∧
      ∃ c ∈ σ.kids, c.opening = 2 ∧ ∃ t, c.image = some t ∧
        t 0 = some ⟨.input 2 .reader, false⟩ ∧ t 1 = some ⟨.output 2 .writer, false⟩ ∧
        t.Has (.input 1 .writer) := by
  have hrun : (run Pipes.step (Pipes.start streams) reopenRun).map (fun σ =>
      (σ.kids[2]?).map fun c =>
        (c.opening, c.image.isSome, c.shared, (c.parent 0).isSome, (c.parent 1).isSome)) =
      some (some (2, true, [1], true, true)) := by
    decide +kernel
  obtain ⟨σ, hσ, hkid⟩ := Option.map_eq_some_iff.mp hrun
  obtain ⟨c, hc, hvalues⟩ := Option.map_eq_some_iff.mp hkid
  simp only [Prod.mk.injEq] at hvalues
  obtain ⟨hopening, himage, hshared, h0, h1⟩ := hvalues
  obtain ⟨t, ht⟩ := Option.isSome_iff_exists.mp himage
  obtain ⟨e₀, h0⟩ := Option.isSome_iff_exists.mp h0
  obtain ⟨e₁, h1⟩ := Option.isSome_iff_exists.mp h1
  obtain ⟨hin, hout, -, hshares⟩ := (program_streams streams reopenRun σ hσ).1 c
    (List.mem_of_getElem? hc) t ht
  rw [h0, hopening] at hin
  rw [h1, hopening] at hout
  exact ⟨σ, hσ, c, List.mem_of_getElem? hc, hopening, t, ht, hin, hout,
    hshares 1 (by simp [hshared])⟩

/-- Once every child has come to its program, and when the programs that run have the pipe ends
that they were started with and have passed none on: a child comes to the end of its input exactly
when its object has closed its end and every other child that shares the input is gone; and a
write of an object fails exactly when the object has closed its end, or the child is gone or was
started without an input. -/
theorem input_ends_iff (fds : ℕ → Option Bool) (moves : List Move) (σ : Pipes)
    (hrun : run Pipes.step (Pipes.start fds) moves = some σ) (hset : σ.Settled) (hkept : σ.Kept)
    (k : ℕ) :
    (σ.Nobody (.input k .writer) ↔
      (∀ o ∈ σ.objects, o.opening = some k → o.writeToChild.valid = false) ∧
      ∀ c ∈ σ.kids, c.exited = false → k ∉ c.shared) ∧
    ∀ o ∈ σ.objects, o.opening = some k →
      (σ.WriteFails o ↔ o.writeToChild.valid = false ∨
        ∀ c ∈ σ.kids, c.exited = false → c.opening = k → c.parent 0 = none) := by
  have h := Pipes.Sound.reached hrun
  refine ⟨?_, fun o ho hk => ?_⟩
  · unfold Pipes.Nobody
    rw [h.has_input_writer, h.apart_iff hset hkept (by simp)
      fun c hc t ht => (h.kids c hc).has_input_writer ht k]
    simp
  · have hreader : σ.Nobody (.input k .reader) ↔
        ∀ c ∈ σ.kids, c.exited = false → c.opening = k → c.parent 0 = none := by
      unfold Pipes.Nobody
      rw [and_iff_right (h.not_has k).1, h.apart_iff hset hkept (by simp)
        fun c hc t ht => (h.kids c hc).has_input_reader ht k]
      simp
    obtain ⟨i, ho⟩ := List.mem_iff_getElem?.mp ho
    have hinput {j : ℕ} := h.inputOf_iff (k := j) ho
    unfold Pipes.WriteFails
    rw [← hreader]
    constructor
    · intro hfails
      by_cases hv : o.writeToChild.valid = true
      · exact .inr (hfails k (hinput.mpr ⟨hv, hk⟩))
      · exact .inl (Bool.eq_false_iff.mpr hv)
    · rintro (hclosed | hnobody) k' hk'
      · rw [(hinput.mp hk').1] at hclosed
        cases hclosed
      · rwa [← Option.some.inj (hk.symm.trans (hinput.mp hk').2)]

/-- The second object closes its end: its child does not come to the end of its input before
the other one is gone. -/
theorem input_ends_reopen :
    ∃ σ σ', run Pipes.step (Pipes.start streams) (reopenRun ++ [.closeStdin 1]) = some σ ∧
      run Pipes.step (Pipes.start streams) (reopenRun ++ [.closeStdin 1, .exit 2]) = some σ' ∧
      ¬ σ.Nobody (.input 1 .writer) ∧ σ'.Nobody (.input 1 .writer) := by
  have hbefore : (run Pipes.step (Pipes.start streams) (reopenRun ++ [.closeStdin 1])).map (fun σ =>
      (decide σ.Settled, decide (∃ c ∈ σ.kids, c.exited = false ∧ 1 ∈ c.shared))) =
      some (true, true) := by
    decide +kernel
  have hafter : (run Pipes.step (Pipes.start streams)
      (reopenRun ++ [.closeStdin 1, .exit 2])).map (fun σ =>
      (decide σ.Settled, decide (∃ c ∈ σ.kids, c.exited = false ∧ 1 ∈ c.shared),
        decide (∃ o ∈ σ.objects, o.opening = some 1 ∧ o.writeToChild.valid))) =
      some (true, false, false) := by
    decide +kernel
  obtain ⟨σ, hσ, hvalues⟩ := Option.map_eq_some_iff.mp hbefore
  obtain ⟨σ', hσ', hvalues'⟩ := Option.map_eq_some_iff.mp hafter
  simp only [Prod.mk.injEq, decide_eq_true_eq, decide_eq_false_iff_not] at hvalues hvalues'
  obtain ⟨hset, c, hc, hlive, hshares⟩ := hvalues
  obtain ⟨hset', hnone, hclosed⟩ := hvalues'
  have hkept := Pipes.kept_of_quiet hσ (by decide)
  have hkept' := Pipes.kept_of_quiet hσ' (by decide)
  refine ⟨σ, σ', hσ, hσ', fun hend => ?_, ?_⟩
  · exact ((input_ends_iff streams _ σ hσ hset hkept 1).1.mp hend).2 c hc hlive hshares
  · refine (input_ends_iff streams _ σ' hσ' hset' hkept' 1).1.mpr
      ⟨fun o ho hk => ?_, fun c hc hlive hs => ?_⟩
    · exact Bool.eq_false_iff.mpr fun hv => hclosed ⟨o, ho, hk, hv⟩
    · exact hnone ⟨c, hc, hlive, hs⟩

/-- Under the same conditions: a read of an object comes to the end of the child's output exactly
when the object has its end and the child is gone, or was started without an output, whatever
other children there are; and the child's writes fail exactly when the object has closed its
end. -/
theorem output_ends_iff (fds : ℕ → Option Bool) (moves : List Move) (σ : Pipes)
    (hrun : run Pipes.step (Pipes.start fds) moves = some σ) (hset : σ.Settled) (hkept : σ.Kept)
    (k : ℕ) :
    (∀ o ∈ σ.objects, o.opening = some k →
      (σ.ReadEnds o ↔ o.readFromChild.valid = true ∧
        ∀ c ∈ σ.kids, c.exited = false → c.opening = k → c.parent 1 = none)) ∧
    (σ.Nobody (.output k .reader) ↔
      ∀ o ∈ σ.objects, o.opening = some k → o.readFromChild.valid = false) := by
  have h := Pipes.Sound.reached hrun
  refine ⟨fun o ho hk => ?_, ?_⟩
  · have hwriter : σ.Nobody (.output k .writer) ↔
        ∀ c ∈ σ.kids, c.exited = false → c.opening = k → c.parent 1 = none := by
      unfold Pipes.Nobody
      rw [and_iff_right (h.not_has k).2, h.apart_iff hset hkept (by simp)
        fun c hc t ht => (h.kids c hc).has_output_writer ht k]
      simp
    obtain ⟨i, ho⟩ := List.mem_iff_getElem?.mp ho
    have houtput {j : ℕ} := h.outputOf_iff (k := j) ho
    unfold Pipes.ReadEnds
    rw [← hwriter]
    constructor
    · rintro ⟨k', hk', hnobody⟩
      obtain ⟨hv, hopen⟩ := houtput.mp hk'
      exact ⟨hv, by rwa [Option.some.inj (hk.symm.trans hopen)]⟩
    · rintro ⟨hv, hnobody⟩
      exact ⟨k, houtput.mpr ⟨hv, hk⟩, hnobody⟩
  · unfold Pipes.Nobody
    rw [h.has_output_reader, h.apart_iff hset hkept (by simp) (p := fun _ => False)
      fun c hc t ht => iff_of_false ((h.kids c hc).not_has_output_reader ht k) id]
    simp

/-- The second child is gone, the last one is not. -/
theorem output_ends_reopen :
    ∃ σ o o', run Pipes.step (Pipes.start streams) (reopenRun ++ [.exit 1]) = some σ ∧
      σ.objects = [o, o'] ∧ σ.ReadEnds o' ∧ ¬ σ.ReadEnds o := by
  have hrun : (run Pipes.step (Pipes.start streams) (reopenRun ++ [.exit 1])).map (fun σ =>
      (decide σ.Settled, decide (∃ c ∈ σ.kids, c.exited = false ∧ c.opening = 1),
        decide (∃ c ∈ σ.kids, c.exited = false ∧ c.opening = 2 ∧ (c.parent 1).isSome),
        decide (σ.objects.map (fun o => (o.opening, o.readFromChild.valid)) =
          [(some 2, true), (some 1, true)]))) =
      some (true, false, true, true) := by
    decide +kernel
  obtain ⟨σ, hσ, hvalues⟩ := Option.map_eq_some_iff.mp hrun
  simp only [Prod.mk.injEq, decide_eq_true_eq, decide_eq_false_iff_not] at hvalues
  obtain ⟨hset, hgone, ⟨c, hc, hlive, hopening, hout⟩, hobjects⟩ := hvalues
  have hkept := Pipes.kept_of_quiet hσ (by decide)
  obtain ⟨o, rest, hobj, ho, hrest⟩ := List.map_eq_cons_iff.mp hobjects
  obtain ⟨o', last, rfl, ho', hlast⟩ := List.map_eq_cons_iff.mp hrest
  obtain rfl := List.map_eq_nil_iff.mp hlast
  obtain ⟨hk, -⟩ := Prod.mk.inj ho
  obtain ⟨hk', hv'⟩ := Prod.mk.inj ho'
  refine ⟨σ, o, o', hσ, hobj, ?_, fun hend => ?_⟩
  · refine ((output_ends_iff streams _ σ hσ hset hkept 1).1 o' (by simp [hobj]) hk').mpr
      ⟨hv', fun c hc hlive hk => absurd ⟨c, hc, hlive, hk⟩ hgone⟩
  · have hends := ((output_ends_iff streams _ σ hσ hset hkept 2).1 o (by simp [hobj]) hk).mp hend
    rw [hends.2 c hc hlive hopening] at hout
    cases hout

end Sphere.Proc
