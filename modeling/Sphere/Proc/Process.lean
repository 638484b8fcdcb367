import Sphere.Lib.Transition

/-! `prc::Process` between its system calls. Every outcome of a call is an input of the step
that makes it. When `fork` returns in the child, the object is the child's copy, up to the
program or to the `exit` that takes its place. -/

namespace Sphere.Proc

structure Descriptor where
  fd : ℤ := -1
  deriving DecidableEq, Repr

namespace Descriptor

def valid (d : Descriptor) : Bool := -1 < d.fd

def close (d : Descriptor) : Descriptor := if d.valid then ⟨-1⟩ else d

/-- The old descriptor is closed first. -/
def setFd (_ : Descriptor) (id : ℤ) : Descriptor := ⟨id⟩

end Descriptor

/-- What `waitpid` returns: zero, the pid of a child it has reaped, or -1. -/
inductive WaitResult
  | running
  | exited (pid : ℕ)
  | error
  deriving DecidableEq, Repr

/-- `!waitpid(_cpid, nullptr, WNOHANG)` -/
def isRunning (w : WaitResult) : Bool := w = .running

/-- Where a call of the object is. `constructing` tells the constructor's `open` from
another one, `dying` the destructor's `close`, `out` the child's `dup2` to 1 from that to 0. -/
inductive Phase
  | ready
  | probing (constructing : Bool)
  | piping (constructing : Bool)
  | forking (constructing : Bool)
  | redirecting (constructing out : Bool)
  | executing (constructing : Bool)
  | exiting (constructing : Bool)
  | killing (dying : Bool)
  | waiting (dying : Bool)
  | gone
  deriving DecidableEq, Repr

structure Process where
  cpid : ℤ := -1
  writeToChild : Descriptor := {}
  readFromChild : Descriptor := {}
  phase : Phase := .probing true
  deriving DecidableEq, Repr

/-- The calls of the user, and the system calls they make. `fork` returns in the parent, with
the pid or not, `born` in the child. `exit` destroys the object or not. -/
inductive Event
  | open
  | isRunning (w : WaitResult)
  | closeStdin
  | close
  | destroy
  | probe (w : WaitResult)
  | pipes (ends : Option (ℤ × ℤ))
  | fork (pid : Option ℕ)
  | born
  | dup2 (out ok : Bool)
  | execv (ok : Bool)
  | exit (destroyed : Bool)
  | kill (ok : Bool)
  | wait (w : WaitResult)
  deriving DecidableEq, Repr

/-- The result of the `waitpid` that the event makes. -/
def Event.waited : Event → Option WaitResult
  | .isRunning w | .probe w | .wait w => some w
  | _ => none

namespace Process

/-- `waitpid` of a positive pid reports that child only, `waitpid(-1)` any. -/
def Reports (cpid : ℤ) : WaitResult → Prop
  | .exited pid => 0 < pid ∧ (cpid = -1 ∨ cpid = pid)
  | _ => True

instance (cpid : ℤ) (w : WaitResult) : Decidable (Reports cpid w) := by
  unfold Reports
  split <;> infer_instance

/-- `open` has thrown; there is no object when it was the constructor's. -/
def failed (constructing : Bool) : Phase := if constructing then .gone else .ready

/-- `close` has returned or thrown; the destructor swallows the exception. -/
def closed (dying : Bool) : Phase := if dying then .gone else .ready

def closeEnds (o : Process) : Process :=
  { o with writeToChild := o.writeToChild.close, readFromChild := o.readFromChild.close }

def step (o : Process) (e : Event) : Option Process :=
  match o.phase, e with
  | .ready, .open => some { o with phase := .probing false }
  | .ready, .isRunning w => if Reports o.cpid w then some o else none
  | .ready, .closeStdin => some { o with writeToChild := o.writeToChild.close }
  | .ready, .close => some { o.closeEnds with phase := .killing false }
  | .ready, .destroy => some { o.closeEnds with phase := .killing true }
  | .probing c, .probe w =>
    if Reports o.cpid w then
      -- "Nested processes are forbidden"
      some { o with phase := if isRunning w then failed c else .piping c }
    else none
  | .piping c, .pipes none => some { o with phase := failed c }
  | .piping c, .pipes (some (out, inp)) =>
    some { o with
      readFromChild := o.readFromChild.setFd out
      writeToChild := o.writeToChild.setFd inp
      phase := .forking c }
  -- the result of `fork` is stored before it is looked at
  | .forking c, .fork none => some { o with cpid := -1, phase := failed c }
  | .forking _, .fork (some pid) =>
    if 0 < pid then some { o with cpid := pid, phase := .ready } else none
  | .forking c, .born => some { o with cpid := 0, phase := .redirecting c false }
  | .redirecting c false, .dup2 false true =>
    some { o with writeToChild := o.writeToChild.close, phase := .redirecting c true }
  | .redirecting c true, .dup2 true true =>
    some { o with readFromChild := o.readFromChild.close, phase := .executing c }
  | .redirecting c out, .dup2 out' false =>
    if out = out' then some { o with phase := .exiting c } else none
  | .executing c, .execv ok => some { o with phase := if ok then .gone else .exiting c }
  | .exiting _, .exit false => some { o with phase := .gone }
  -- only a static object is destroyed, once its constructor has returned
  | .exiting false, .exit true => some { o.closeEnds with phase := .killing true }
  | .killing d, .kill ok => some { o with phase := if ok then .waiting d else closed d }
  | .waiting d, .wait w =>
    if w ≠ .running ∧ Reports o.cpid w then some { o with phase := closed d } else none
  | _, _ => none

variable {o o' : Process} {e : Event}

/-- What a step does to the child id: it is stored by `fork`, whatever the result, and
stays when a child is waited for. -/
theorem step_cpid (h : o.step e = some o') :
    (∃ w, e.waited = some w ∧ Reports o.cpid w ∧ o'.cpid = o.cpid) ∨
    (e = .fork none ∧ o'.cpid = -1) ∨ (e = .born ∧ o'.cpid = 0) ∨
    (∃ pid : ℕ, e = .fork (some pid) ∧ 0 < pid ∧ o'.cpid = pid) ∨
    ((e.waited = none ∧ e ≠ .born ∧ ∀ r, e ≠ .fork r) ∧ o'.cpid = o.cpid) := by
  -- neither a query nor a `fork`
  have hrest {p : Process} (h : some p = some o') (hp : p.cpid = o.cpid) : o'.cpid = o.cpid :=
    Option.some.inj h ▸ hp
  unfold step at h
  split at h
  · exact .inr (.inr (.inr (.inr ⟨⟨rfl, by simp⟩, hrest h rfl⟩)))
  · obtain ⟨hr, h⟩ := Option.ite_none_right_eq_some.mp h
    obtain rfl := Option.some.inj h
    exact .inl ⟨_, rfl, hr, rfl⟩
  · exact .inr (.inr (.inr (.inr ⟨⟨rfl, by simp⟩, hrest h rfl⟩)))
  · exact .inr (.inr (.inr (.inr ⟨⟨rfl, by simp⟩, hrest h rfl⟩)))
  · exact .inr (.inr (.inr (.inr ⟨⟨rfl, by simp⟩, hrest h rfl⟩)))
  · obtain ⟨hr, h⟩ := Option.ite_none_right_eq_some.mp h
    obtain rfl := Option.some.inj h
    exact .inl ⟨_, rfl, hr, rfl⟩
  · exact .inr (.inr (.inr (.inr ⟨⟨rfl, by simp⟩, hrest h rfl⟩)))
  · exact .inr (.inr (.inr (.inr ⟨⟨rfl, by simp⟩, hrest h rfl⟩)))
  · obtain rfl := Option.some.inj h
    exact .inr (.inl ⟨rfl, rfl⟩)
  · split_ifs at h with hpos
    obtain rfl := Option.some.inj h
    exact .inr (.inr (.inr (.inl ⟨_, rfl, hpos, rfl⟩)))
  · obtain rfl := Option.some.inj h
    exact .inr (.inr (.inl ⟨rfl, rfl⟩))
  · exact .inr (.inr (.inr (.inr ⟨⟨rfl, by simp⟩, hrest h rfl⟩)))
  · exact .inr (.inr (.inr (.inr ⟨⟨rfl, by simp⟩, hrest h rfl⟩)))
  · obtain ⟨-, h⟩ := Option.ite_none_right_eq_some.mp h
    exact .inr (.inr (.inr (.inr ⟨⟨rfl, by simp⟩, hrest h rfl⟩)))
  · exact .inr (.inr (.inr (.inr ⟨⟨rfl, by simp⟩, hrest h rfl⟩)))
  · exact .inr (.inr (.inr (.inr ⟨⟨rfl, by simp⟩, hrest h rfl⟩)))
  · exact .inr (.inr (.inr (.inr ⟨⟨rfl, by simp⟩, hrest h rfl⟩)))
  · exact .inr (.inr (.inr (.inr ⟨⟨rfl, by simp⟩, hrest h rfl⟩)))
  · obtain ⟨hr, h⟩ := Option.ite_none_right_eq_some.mp h
    obtain rfl := Option.some.inj h
    exact .inl ⟨_, rfl, hr.2, rfl⟩
  · cases h

end Process
end Sphere.Proc
