import Sphere.Lib.FileTable
import Sphere.Lib.Transition
import Sphere.Proc.Process

/-! The pipes of `Process::open` over `fork` and `exec`: what descriptors the parent, and each of
the children, has. The parent makes one call at a time; a child goes through its system calls
while the parent and the other children go on. A program that has been started may do anything
with its descriptors, and make other processes. -/

namespace Sphere.Proc

open Lib.FileTable Lib.Transition

inductive Side
  | reader
  | writer
  deriving DecidableEq, Repr

/-- The `k`-th `open` makes two pipes, the child's input and its output; `other` is what the
parent has besides. -/
inductive File
  | other
  | input (k : ℕ) (side : Side)
  | output (k : ℕ) (side : Side)
  deriving DecidableEq, Repr

/-- `pipe_out[0]`, `pipe_out[1]`, `pipe_in[0]` and `pipe_in[1]` -/
structure Ends where
  outR : ℕ
  outW : ℕ
  inR : ℕ
  inW : ℕ
  deriving DecidableEq, Repr

def Ends.list (f : Ends) : List ℕ := [f.outR, f.outW, f.inR, f.inW]

/-- `pipe2(pipe_out, O_CLOEXEC)` -/
def pipeOut (t : Table File) (f : Ends) (k : ℕ) : Table File :=
  (t.put f.outR ⟨.output k .reader, true⟩).put f.outW ⟨.output k .writer, true⟩

/-- `pipe(pipe_in)` -/
def pipeIn (t : Table File) (f : Ends) (k : ℕ) : Table File :=
  (t.put f.inR ⟨.input k .reader, false⟩).put f.inW ⟨.input k .writer, false⟩

/-- Each number was the lowest that was free. -/
structure Ends.Given (f : Ends) (t : Table File) (k : ℕ) : Prop where
  outR : t.Lowest f.outR
  outW : (t.put f.outR ⟨.output k .reader, true⟩).Lowest f.outW
  inR : (pipeOut t f k).Lowest f.inR
  inW : ((pipeOut t f k).put f.inR ⟨.input k .reader, false⟩).Lowest f.inW

instance (f : Ends) (t : Table File) (k : ℕ) : Decidable (f.Given t k) :=
  decidable_of_iff (t.Lowest f.outR ∧
      (t.put f.outR ⟨.output k .reader, true⟩).Lowest f.outW ∧
      (pipeOut t f k).Lowest f.inR ∧
      ((pipeOut t f k).put f.inR ⟨.input k .reader, false⟩).Lowest f.inW)
    ⟨fun ⟨h1, h2, h3, h4⟩ => ⟨h1, h2, h3, h4⟩, fun ⟨h1, h2, h3, h4⟩ => ⟨h1, h2, h3, h4⟩⟩

/-- What the child does before its program runs. -/
def setup (f : Ends) : List Lib.FileTable.Call :=
  [.dup2 f.inR 0, .close f.inR, .close f.inW, .dup2 f.outW 1, .close f.outW, .close f.outR, .exec]

/-- A child. Beside its table and its calls to come: the `open` it is of, the parent's table by
then and the child's from `fork`, the `open`s whose input it can write to, and what its program
was started with. -/
structure Kid where
  opening : ℕ
  ends : Ends
  parent : Table File
  forked : Table File
  shared : List ℕ
  image : Option (Table File)
  table : Table File
  todo : List Lib.FileTable.Call
  exited : Bool

namespace Kid

/-- The descriptors of a process that exits are closed. -/
def exit (c : Kid) : Kid := { c with table := .none, todo := [], exited := true }

/-- The next system call of the child, which exits when it fails. -/
def next (c : Kid) : Kid :=
  match c.todo with
  | [] => c
  | call :: todo =>
    match c.table.call call with
    | none => c.exit
    | some t => { c with table := t, todo, image := if call = .exec then some t else c.image }

/-- The program that runs has other descriptors. -/
def acts (t : Table File) (c : Kid) : Kid :=
  if c.exited = false ∧ c.image.isSome then { c with table := t } else c

end Kid

/-- `opening` is the last `open` that made pipes. -/
structure Object extends Process where
  opening : Option ℕ

/-- `kids` has every child there was, `others` what the processes have that are not the parent's,
and `next` is the number of the next `open`. -/
structure Pipes where
  table : Table File
  objects : List Object
  kids : List Kid
  others : List (Table File)
  next : ℕ

/-- How `open` ends: it throws because a child runs, because `pipe2` or `pipe` fails or because
`fork` fails, or there is a child. -/
inductive Opening
  | running
  | noPipe
  | noFork (f : Ends)
  | forked (f : Ends) (pid : ℕ)
  deriving DecidableEq, Repr

/-- The system calls of `open` behind `isRunning`, as the object sees them. -/
def Opening.events (w : WaitResult) : Opening → List Event
  | .running => [.probe .running]
  | .noPipe => [.probe w, .pipes none]
  | .noFork f => [.probe w, .pipes (some (f.outR, f.inW)), .fork none]
  | .forked f pid => [.probe w, .pipes (some (f.outR, f.inW)), .fork (some pid)]

/-- `kill` fails, or the child is waited for. -/
def endEvents : Option WaitResult → List Event
  | none => [.kill false]
  | some w => [.kill true, .wait w]

inductive Move
  | construct (w : WaitResult) (r : Opening)
  | open (i : ℕ) (w : WaitResult) (r : Opening)
  | closeStdin (i : ℕ)
  | close (i : ℕ) (w : Option WaitResult)
  | destroy (i : ℕ) (w : Option WaitResult)
  | opens (fd : ℕ) (cloexec : Bool)
  | closes (fd : ℕ)
  | call (j : ℕ)
  | exit (j : ℕ)
  | acts (j : ℕ) (t : Table File)
  | others (ts : List (Table File))

/-- `Descriptor::close` -/
def release (t : Table File) (d : Descriptor) : Table File :=
  if d.valid then t.close d.fd.toNat else t

namespace Object

def releaseEnds (o : Object) (t : Table File) : Table File :=
  release (release t o.writeToChild) o.readFromChild

/-- The `open` whose input the object writes to. -/
def inputOf (o : Object) (t : Table File) : Option ℕ :=
  if o.writeToChild.valid then
    (t o.writeToChild.fd.toNat).bind fun e =>
      match e.file with
      | .input k .writer => some k
      | _ => none
  else none

/-- The `open` whose output the object reads. -/
def outputOf (o : Object) (t : Table File) : Option ℕ :=
  if o.readFromChild.valid then
    (t o.readFromChild.fd.toNat).bind fun e =>
      match e.file with
      | .output k .reader => some k
      | _ => none
  else none

/-- The object goes through some events of its own. -/
def goes (o : Object) (events : List Event) : Option Object :=
  (run Process.step o.toProcess events).map fun p => { o with toProcess := p }

end Object

namespace Pipes

/-- The parent as it is started. -/
def start (fds : ℕ → Option Bool) : Pipes := ⟨fun fd => (fds fd).map (⟨.other, ·⟩), [], [], [], 0⟩

/-- The table after both pipes, of which the object's ends take the place of its old ones. -/
def piped (σ : Pipes) (o : Object) (f : Ends) : Table File :=
  o.releaseEnds (pipeIn (pipeOut σ.table f σ.next) f σ.next)

/-- The objects other than this one whose input a child inherits. -/
def shared (σ : Pipes) (i : ℕ) : List ℕ :=
  (σ.objects.eraseIdx i).filterMap (·.inputOf σ.table)

/-- The end of `open` for the `i`-th object, which has gone through its events. At the end the
local `Descriptor`s close `pipe_in[0]` and `pipe_out[1]`. -/
def opened (σ : Pipes) (i : ℕ) (o o' : Object) : Opening → Option Pipes
  | .running | .noPipe => some { σ with objects := σ.objects.set i o' }
  | .noFork f =>
    if f.Given σ.table σ.next then
      some { σ with
        table := ((σ.piped o f).close f.inR).close f.outW
        objects := σ.objects.set i { o' with opening := some σ.next }
        next := σ.next + 1 }
    else none
  | .forked f _ =>
    if f.Given σ.table σ.next then
      let t := σ.piped o f
      some { σ with
        table := (t.close f.inR).close f.outW
        objects := σ.objects.set i { o' with opening := some σ.next }
        kids := σ.kids ++ [⟨σ.next, f, σ.table, t, σ.shared i, none, t, setup f, false⟩]
        next := σ.next + 1 }
    else none

def doOpen (σ : Pipes) (i : ℕ) (events : List Event) (r : Opening) : Option Pipes :=
  (σ.objects[i]?).bind fun o => (o.goes events).bind fun o' => σ.opened i o o' r

/-- The members of an object are destroyed when its constructor throws. -/
def disposed (σ : Pipes) (i : ℕ) : Pipes :=
  match σ.objects[i]? with
  | some o =>
    if o.phase = .gone then
      { σ with
        table := o.releaseEnds σ.table
        objects := σ.objects.set i { o with toProcess := o.closeEnds } }
    else σ
  | none => σ

def step (σ : Pipes) : Move → Option Pipes
  | .construct w r =>
    (({ σ with objects := σ.objects ++ [⟨{}, none⟩] } : Pipes).doOpen σ.objects.length
      (r.events w) r).map (·.disposed σ.objects.length)
  | .open i w r => σ.doOpen i (.open :: r.events w) r
  | .closeStdin i =>
    (σ.objects[i]?).bind fun o => (o.goes [.closeStdin]).map fun o' =>
      { σ with table := release σ.table o.writeToChild, objects := σ.objects.set i o' }
  | .close i w =>
    (σ.objects[i]?).bind fun o => (o.goes (.close :: endEvents w)).map fun o' =>
      { σ with table := o.releaseEnds σ.table, objects := σ.objects.set i o' }
  | .destroy i w =>
    (σ.objects[i]?).bind fun o => (o.goes (.destroy :: endEvents w)).map fun o' =>
      { σ with table := o.releaseEnds σ.table, objects := σ.objects.set i o' }
  | .opens fd cloexec =>
    if σ.table.Lowest fd then some { σ with table := σ.table.put fd ⟨.other, cloexec⟩ } else none
  | .closes fd =>
    if (σ.table fd).map (·.file) = some .other then some { σ with table := σ.table.close fd }
    else none
  | .call j => some { σ with kids := σ.kids.modify j Kid.next }
  | .exit j => some { σ with kids := σ.kids.modify j Kid.exit }
  | .acts j t => some { σ with kids := σ.kids.modify j (Kid.acts t) }
  | .others ts => some { σ with others := ts }

end Pipes

end Sphere.Proc
