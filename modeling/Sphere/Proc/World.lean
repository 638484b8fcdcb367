import Sphere.Proc.Process

/-! Several `Process` objects in one parent. The kernel keeps the children that were not
waited for, and each object asks it about its child id, whatever that is. -/

namespace Sphere.Proc

open Lib.Transition

/-- A child of the parent, and the object whose `fork` it came from. -/
structure Child where
  pid : ℕ
  owner : ℕ
  exited : Bool := false
  deriving DecidableEq, Repr

/-- The child is one that `waitpid(cpid, ..)` is about. -/
def Child.Matches (c : Child) (cpid : ℤ) : Prop := cpid = -1 ∨ cpid = c.pid

instance (c : Child) (cpid : ℤ) : Decidable (c.Matches cpid) :=
  inferInstanceAs (Decidable (_ ∨ _))

structure World where
  objects : List Process
  children : List Child

inductive Action
  | construct
  | does (i : ℕ) (e : Event)
  | exit (pid : ℕ)
  deriving DecidableEq, Repr

/-- The children left when `waitpid` returns the result; `none` when it cannot. -/
def waitpid (children : List Child) (cpid : ℤ) : WaitResult → Option (List Child)
  | .running =>
    if (∃ c ∈ children, c.Matches cpid) ∧ ∀ c ∈ children, c.Matches cpid → c.exited = false then
      some children
    else none
  | .exited pid =>
    if ∃ c ∈ children, c.pid = pid ∧ c.Matches cpid ∧ c.exited = true then
      some (children.filter (·.pid ≠ pid))
    else none
  | .error => some children

namespace World

/-- A new child gets a number that no child has. -/
def fork (children : List Child) (i pid : ℕ) : Option (List Child) :=
  if pid ∈ children.map (·.pid) then none else some (⟨pid, i, false⟩ :: children)

/-- `fork` returns to the parent; the child's copy of the object is in another process. -/
def kernel (children : List Child) (i : ℕ) (cpid : ℤ) (e : Event) : Option (List Child) :=
  match e.waited, e with
  | some w, _ => waitpid children cpid w
  | none, .fork (some pid) => fork children i pid
  | none, .born => none
  | none, _ => some children

def step (σ : World) : Action → Option World
  | .construct => some { σ with objects := σ.objects ++ [{}] }
  | .does i e =>
    match σ.objects[i]? with
    | none => none
    | some o => (o.step e).bind fun o' =>
        (kernel σ.children i o.cpid e).map fun cs => ⟨σ.objects.set i o', cs⟩
  | .exit pid =>
    if ∃ c ∈ σ.children, c.pid = pid ∧ c.exited = false then
      some { σ with
        children := σ.children.map fun c => if c.pid = pid then { c with exited := true } else c }
    else none

/-- A child is reaped by the object that forked it, and `open` is rejected only because
the object's own child runs. -/
def Independent (σ : World) (a : Action) : Prop :=
  ∀ i e, a = .does i e → (σ.step a).isSome →
    (∀ pid, e.waited = some (.exited pid) → ∀ c ∈ σ.children, c.pid = pid → c.owner = i) ∧
    (e = .probe .running → ∃ c ∈ σ.children, c.owner = i ∧ c.exited = false)

/-- The query cannot be answered by another object's child: the object's own child with
the number was not waited for, or no other child with the number (any, when the child id is
-1) has exited, nor runs when it is `open` that asks. -/
def Undisturbed (σ : World) : Action → Prop
  | .does i e => ∀ o ∈ σ.objects[i]?,
    (∃ c ∈ σ.children, c.owner = i ∧ o.cpid = c.pid) ∨
    ∀ w ∈ e.waited, ∀ c ∈ σ.children, c.owner ≠ i → c.Matches o.cpid →
      c.exited = false ∧ e ≠ .probe w
  | _ => True

instance (σ : World) (a : Action) : Decidable (σ.Undisturbed a) := by
  unfold Undisturbed
  split <;> infer_instance

/-- The kernel does not give one number to two children. -/
def Distinct (σ : World) : Prop := (σ.children.map (·.pid)).Nodup

theorem Distinct.unique {σ : World} (h : σ.Distinct) {c d : Child} (hc : c ∈ σ.children)
    (hd : d ∈ σ.children) (hcd : c.pid = d.pid) : c = d :=
  List.inj_on_of_nodup_map h hc hd hcd

theorem Distinct.waitpid {σ : World} (h : σ.Distinct) {cpid : ℤ} {w : WaitResult}
    {cs : List Child} (hw : waitpid σ.children cpid w = some cs) : (cs.map (·.pid)).Nodup := by
  cases w with
  | running =>
    obtain ⟨-, hw⟩ := Option.ite_none_right_eq_some.mp hw
    obtain rfl := Option.some.inj hw
    exact h
  | exited pid =>
    obtain ⟨-, hw⟩ := Option.ite_none_right_eq_some.mp hw
    obtain rfl := Option.some.inj hw
    exact h.sublist (List.filter_sublist.map _)
  | error =>
    obtain rfl := Option.some.inj hw
    exact h

theorem Distinct.kernel {σ : World} (h : σ.Distinct) {i : ℕ} {cpid : ℤ} {e : Event}
    {cs : List Child} (hk : kernel σ.children i cpid e = some cs) : (cs.map (·.pid)).Nodup := by
  unfold World.kernel at hk
  split at hk
  · exact h.waitpid hk
  · unfold World.fork at hk
    split_ifs at hk with hp
    obtain rfl := Option.some.inj hk
    rw [List.map_cons, List.nodup_cons]
    exact ⟨hp, h⟩
  · cases hk
  · obtain rfl := Option.some.inj hk
    exact h

theorem Distinct.step {σ σ' : World} {a : Action} (h : σ.Distinct)
    (hstep : σ.step a = some σ') : σ'.Distinct := by
  cases a with
  | construct =>
    obtain rfl := Option.some.inj hstep
    exact h
  | does i e =>
    rw [World.step] at hstep
    split at hstep
    · cases hstep
    · obtain ⟨o', -, hstep⟩ := Option.bind_eq_some_iff.mp hstep
      obtain ⟨cs, hk, rfl⟩ := Option.map_eq_some_iff.mp hstep
      exact h.kernel hk
  | exit pid =>
    rw [World.step] at hstep
    split_ifs at hstep with hc
    obtain rfl := Option.some.inj hstep
    have hmap : (σ.children.map fun c => if c.pid = pid then { c with exited := true } else c).map
        (·.pid) = σ.children.map (·.pid) := by
      rw [List.map_map]
      refine List.map_congr_left fun c _ => ?_
      dsimp only [Function.comp]
      split_ifs <;> rfl
    unfold Distinct
    rw [hmap]
    exact h

/-- What the kernel has found when it answers. -/
theorem step_does {σ : World} {i : ℕ} {e : Event} {w : WaitResult}
    (h : (σ.step (.does i e)).isSome) (hw : e.waited = some w) :
    ∃ o, σ.objects[i]? = some o ∧ (waitpid σ.children o.cpid w).isSome := by
  obtain ⟨σ', hstep⟩ := Option.isSome_iff_exists.mp h
  rw [step] at hstep
  split at hstep
  · cases hstep
  · next o ho =>
    obtain ⟨o', -, hstep⟩ := Option.bind_eq_some_iff.mp hstep
    obtain ⟨cs, hk, -⟩ := Option.map_eq_some_iff.mp hstep
    refine ⟨o, ho, ?_⟩
    simp only [kernel, hw] at hk
    rw [hk]
    rfl

theorem Distinct.independent {σ : World} {a : Action} (hd : σ.Distinct)
    (h : σ.Undisturbed a) : σ.Independent a := by
  rintro i e rfl hsome
  refine ⟨fun pid hw c hc hpid => ?_, fun he => ?_⟩
  · obtain ⟨o, ho, hk⟩ := step_does hsome hw
    obtain ⟨d, hdm, hdpid, hmatch, hexit⟩ : ∃ d ∈ σ.children, d.pid = pid ∧
        d.Matches o.cpid ∧ d.exited = true := by
      simpa [Proc.waitpid] using hk
    obtain rfl := hd.unique hc hdm (hpid.trans hdpid.symm)
    rcases h o ho with ⟨own, hown, howner, hcpid⟩ | hother
    · rcases hmatch with hwild | hpid'
      · omega
      · rw [hd.unique hc hown (by omega), howner]
    · by_contra hne
      have := (hother _ hw c hc hne hmatch).1
      simp [hexit] at this
  · subst he
    obtain ⟨o, ho, hk⟩ := step_does hsome rfl
    obtain ⟨⟨d, hdm, hmatch⟩, hrun⟩ : (∃ d ∈ σ.children, d.Matches o.cpid) ∧
        ∀ d ∈ σ.children, d.Matches o.cpid → d.exited = false := by
      simpa [Proc.waitpid] using hk
    rcases h o ho with ⟨own, hown, howner, hcpid⟩ | hother
    · exact ⟨own, hown, howner, hrun own hown (.inr hcpid)⟩
    · refine ⟨d, hdm, ?_, hrun d hdm hmatch⟩
      by_contra hne
      exact (hother _ rfl d hdm hne hmatch).2 rfl

end World

/-- In every interleaving of any number of objects and of the exits of their children: as
long as no query can be answered by another object's child, no object reaps another's child
or is rejected because of it. -/
theorem processes_independent (acts : List Action)
    (hclear : Along World.step World.Undisturbed ⟨[], []⟩ acts) :
    Along World.step World.Independent ⟨[], []⟩ acts :=
  Along.imp (I := World.Distinct) (fun _ _ _ hd _ hstep => hd.step hstep)
    (fun _ _ hd hu => hd.independent hu) List.nodup_nil hclear

/-- What the constructor does when it succeeds. -/
def opens (i pid : ℕ) : List Action :=
  [.construct, .does i (.probe .error), .does i (.pipes (some (3, 4))),
    .does i (.fork (some pid))]

/-- The second object is constructed after the first one's child was waited for. -/
theorem processes_independent_one_by_one :
    Along World.step World.Independent ⟨[], []⟩
      (opens 0 5 ++ [.exit 5, .does 0 (.isRunning (.exited 5))] ++ opens 1 6 ++
        [.does 0 (.isRunning .error), .does 1 .close, .does 1 (.kill true), .exit 6,
          .does 1 (.wait (.exited 6))]) :=
  processes_independent _ (by decide)

/-- The constructor of a second object reaps the first one's child when that has exited,
and is rejected as nested while it runs. -/
theorem sibling_disturbed :
    (∃ σ, run World.step ⟨[], []⟩ (opens 0 5 ++ [.exit 5, .construct]) = some σ ∧
      ¬ σ.Independent (.does 1 (.probe (.exited 5)))) ∧
    ∃ σ, run World.step ⟨[], []⟩ (opens 0 5 ++ [.construct]) = some σ ∧
      ¬ σ.Independent (.does 1 (.probe .running)) := by
  refine ⟨?_, ?_⟩
  · have hrun : (run World.step ⟨[], []⟩ (opens 0 5 ++ [.exit 5, .construct])).map
        (fun σ => (σ.children, (σ.step (.does 1 (.probe (.exited 5)))).isSome))
        = some ([⟨5, 0, true⟩], true) := by decide
    obtain ⟨σ, hσ, hq⟩ := Option.map_eq_some_iff.mp hrun
    obtain ⟨hchildren, hsome⟩ := Prod.mk.inj hq
    refine ⟨σ, hσ, fun h => ?_⟩
    have howner := (h 1 _ rfl hsome).1 5 rfl ⟨5, 0, true⟩ (by simp [hchildren]) rfl
    exact absurd howner (by decide)
  · have hrun : (run World.step ⟨[], []⟩ (opens 0 5 ++ [.construct])).map
        (fun σ => (σ.children, (σ.step (.does 1 (.probe .running))).isSome))
        = some ([⟨5, 0, false⟩], true) := by decide
    obtain ⟨σ, hσ, hq⟩ := Option.map_eq_some_iff.mp hrun
    obtain ⟨hchildren, hsome⟩ := Prod.mk.inj hq
    refine ⟨σ, hσ, fun h => ?_⟩
    obtain ⟨c, hc, howner, -⟩ := (h 1 _ rfl hsome).2 rfl
    rw [hchildren, List.mem_singleton] at hc
    subst hc
    exact absurd howner (by decide)

end Sphere.Proc
