import Mathlib.Logic.Function.Basic
import Sphere.Lib.OutStream
import Sphere.Lib.Transition

/-! The global logger and the threads that call it. A call gets a reference to the logger, a
message's level is compared before the mutex is locked, and under the mutex the message goes to
the stream character by character. -/

namespace Sphere.Log

open Lib Lib.Transition

inductive Level
  | unknown
  | debug
  | info
  | warn
  | error
  deriving DecidableEq, Repr

/-- The values of the enumerators -/
def Level.value : Level → ℤ
  | .unknown => -1
  | .debug => 0
  | .info => 1
  | .warn => 2
  | .error => 3

instance : LE Level := ⟨fun a b => a.value ≤ b.value⟩

instance (a b : Level) : Decidable (a ≤ b) := inferInstanceAs (Decidable (a.value ≤ b.value))

/-- The streams: `std::cout`, `std::cerr`, and an `ofstream` on a file. -/
inductive Out
  | cout
  | cerr
  | file (inode : ℕ)
  deriving DecidableEq, Repr

/-- `mutex` is the thread that has `mutex_`. -/
structure BaseLogger where
  out : Out
  level : Level
  mutex : Option ℕ
  deriving DecidableEq, Repr

/-- A call of `log`, `set_level` or `flush` of the global logger. -/
inductive Call
  | log (m : List Char) (l : Level)
  | setLevel (lev : Level)
  | flush
  deriving DecidableEq, Repr

def debug (message : List Char) : Call := .log ("[DEBUG]: ".toList ++ message) .debug
def info (message : List Char) : Call := .log ("[INFO]: ".toList ++ message) .info
def warn (message : List Char) : Call := .log ("[WARNING]: ".toList ++ message) .warn
def error (message : List Char) : Call := .log ("[ERROR]: ".toList ++ message) .error

/-- What a thread does while it has the mutex. -/
inductive Work
  | put (c : Char)
  | flush
  | assign (lev : Level)
  deriving DecidableEq, Repr

/-- The statements behind the `lock_guard`; `std::endl` flushes. -/
def Call.body : Call → List Work
  | .log m _ => (m ++ ['\n']).map .put ++ [.flush]
  | .setLevel lev => [.assign lev]
  | .flush => [.flush]

/-- Where a thread is: it has a reference to the `n`-th logger there was, is at the
`lock_guard`, or is behind it. -/
inductive Place
  | idle
  | has (n : ℕ) (c : Call)
  | waits (n : ℕ) (c : Call)
  | inside (n : ℕ) (todo : List Work)
  deriving DecidableEq, Repr

def Place.logger : Place → Option ℕ
  | .idle => none
  | .has n _ | .waits n _ | .inside n _ => some n

/-- What has happened: an `init` function has set a logger, a thread has locked the mutex for a
message, or a call has thrown `InstanceError`. -/
inductive Event
  | made (out : Out)
  | line (p : ℕ) (out : Out) (m : List Char) (l : Level)
  | threw (p : ℕ)
  deriving DecidableEq, Repr

def Call.lines (p : ℕ) (out : Out) : Call → List Event
  | .log m l => [.line p out m l]
  | _ => []

/-- `logger` is `global_loger_`, the `made`-th logger; `accepted` is what the messages were, by
thread, whose level was not below the logger's. A file is `spoiled` that the stream before may
still write to, anywhere. The state is `astray` once a logger was replaced that a thread was in,
or a thread has gone on with one that was replaced: what the program does then is left open. -/
structure Logging where
  streams : Out → OutStream Char
  spoiled : Out → Bool
  logger : Option BaseLogger
  made : ℕ
  places : ℕ → Place
  accepted : ℕ → List (List Char)
  trace : List Event
  astray : Bool

/-- `opened` is the file that the path leads to, `none` where it cannot be opened. -/
inductive Kind
  | stdoutLogger
  | stderrLogger
  | fileLogger (opened : Option ℕ)
  deriving DecidableEq, Repr

/-- A thread calls a function of the logger or goes on in it, or calls an `init` function; a
part of a buffer goes to the device, or the device fails, once or again. -/
inductive Turn
  | call (p : ℕ) (c : Call)
  | go (p : ℕ)
  | init (p : ℕ) (kind : Kind) (l : Level)
  | spill (o : Out) (k : ℕ)
  | fail (o : Out) (k i n : ℕ)
  deriving DecidableEq, Repr

namespace Logging

/-- Nobody has called anything; `before` is what the devices have. -/
def start (before : Out → List Char) : Logging :=
  ⟨fun o => .onto (before o), fun _ => false, none, 0, fun _ => .idle, fun _ => [], [], false⟩

def move (s : Logging) (p : ℕ) (q : Place) : Logging :=
  { s with places := Function.update s.places p q }

def write (s : Logging) (o : Out) (stream : OutStream Char) : Logging :=
  { s with streams := Function.update s.streams o stream }

/-- `if (l >= _level)`; the other calls have nothing to compare. -/
def look (s : Logging) (b : BaseLogger) (p : ℕ) : Call → Logging
  | .log m l =>
    if b.level ≤ l then
      { s.move p (.waits s.made (.log m l)) with
        accepted := Function.update s.accepted p (s.accepted p ++ [m]) }
    else s.move p .idle
  | c => s.move p (.waits s.made c)

/-- `std::lock_guard lk(mutex_)` -/
def enter (s : Logging) (b : BaseLogger) (p : ℕ) (c : Call) : Logging :=
  { s.move p (.inside s.made c.body) with
    logger := some { b with mutex := some p }
    trace := s.trace ++ c.lines p b.out }

def work (s : Logging) (b : BaseLogger) (p : ℕ) (todo : List Work) : Work → Logging
  | .put c => (s.write b.out ((s.streams b.out).put c)).move p (.inside s.made todo)
  | .flush => (s.write b.out (s.streams b.out).flush).move p (.inside s.made todo)
  | .assign lev => { s.move p (.inside s.made todo) with logger := some { b with level := lev } }

/-- The mutex is unlocked, and the call returns. -/
def leave (s : Logging) (b : BaseLogger) (p : ℕ) : Logging :=
  { s.move p .idle with logger := some { b with mutex := none } }

def stray (s : Logging) : Logging := { s with astray := true }

/-- The next step of a thread in a call, with a logger that may have been destroyed. -/
def go (s : Logging) (p : ℕ) : Option Logging :=
  match s.logger, s.places p with
  | some b, .has n c => some (if n = s.made then s.look b p c else s.stray)
  | some b, .waits n c =>
    if n = s.made then if b.mutex = none then some (s.enter b p c) else none else some s.stray
  | some b, .inside n (w :: todo) => some (if n = s.made then s.work b p todo w else s.stray)
  | some b, .inside n [] => some (if n = s.made then s.leave b p else s.stray)
  | _, _ => none

/-- The stream of a new logger. `ofstream(path)` truncates the file. -/
def opening (s : Logging) : Kind → Option (Out × OutStream Char)
  | .stdoutLogger => some (.cout, s.streams .cout)
  | .stderrLogger => some (.cerr, s.streams .cerr)
  | .fileLogger none => none
  | .fileLogger (some i) => some (.file i, .onto [])

/-- The file is opened again that the last logger's stream has failed on: what that stream has
in its buffer goes behind or into what the new one writes. -/
def spoils (s : Logging) : Out → Bool
  | .file i => s.logger.any (·.out = .file i) && !(s.streams (.file i)).good &&
      !(s.streams (.file i)).buffer.isEmpty
  | o => s.spoiled o

/-- `~StdoutLogger` flushes, the `ofstream` of a `FileLogger` is closed. What a stream that has
failed writes then is a turn of its own. -/
def closing (s : Logging) (old : OutStream Char) : Out → Logging
  | .cerr => s
  | o => s.write o ((s.streams o).drain old)

/-- `set_global_logger`: the new logger is set, and the old one is destroyed. -/
def install (s : Logging) (l : Level) (o : Out) (stream : OutStream Char) : Logging :=
  let s' := { s.write o stream with
    spoiled := Function.update s.spoiled o (s.spoils o)
    logger := some ⟨o, l, none⟩, made := s.made + 1, trace := s.trace ++ [.made o] }
  s.logger.elim s' fun b => s'.closing (s.streams b.out) b.out

/-- An `init` function; where the file cannot be opened, it throws `FileLoggerError`. A mutex
that is locked is destroyed, or, by `~StdoutLogger`, waited for when the new logger is set. -/
def init (s : Logging) (kind : Kind) (l : Level) : Logging :=
  match s.opening kind with
  | none => s
  | some (o, stream) =>
    if s.logger.bind (·.mutex) = none then s.install l o stream else s.stray

/-- The turn does not lead astray. -/
def Defined (s : Logging) : Turn → Prop
  | .go p => ∀ n ∈ (s.places p).logger, n = s.made
  | .init _ kind _ => (s.opening kind).isSome → s.logger.bind (·.mutex) = none
  | _ => True

instance (s : Logging) (a : Turn) : Decidable (s.Defined a) := by
  cases a <;> unfold Defined <;> infer_instance

def turn (s : Logging) : Turn → Option Logging
  | .call p c =>
    if s.places p = .idle then
      if s.logger = none then some { s with trace := s.trace ++ [.threw p] }
      else some (s.move p (.has s.made c))
    else none
  | .go p => s.go p
  | .init p kind l => if s.places p = .idle then some (s.init kind l) else none
  | .spill o k => some (s.write o ((s.streams o).spill k))
  | .fail o k i n => some (s.write o ((s.streams o).fail k i n))

def step (s : Logging) (a : Turn) : Option Logging := if s.astray then none else s.turn a

/-- All that a thread in a call can do next. -/
theorem go_cases {s s' : Logging} {p : ℕ} (h : s.go p = some s') :
    ((∃ n ∈ (s.places p).logger, n ≠ s.made) ∧ s' = s.stray) ∨ ∃ b, s.logger = some b ∧
      ((∃ c, s.places p = .has s.made c ∧ s' = s.look b p c) ∨
        (∃ c, s.places p = .waits s.made c ∧ b.mutex = none ∧ s' = s.enter b p c) ∨
        (∃ w todo, s.places p = .inside s.made (w :: todo) ∧ s' = s.work b p todo w) ∨
        (s.places p = .inside s.made [] ∧ s' = s.leave b p)) := by
  unfold go at h
  cases hb : s.logger with
  | none =>
    rw [hb] at h
    cases h
  | some b =>
    cases hp : s.places p with
    | idle =>
      simp only [hb, hp] at h
      cases h
    | has n c =>
      simp only [hb, hp, Option.some.injEq] at h
      split_ifs at h with hn
      · subst hn
        exact .inr ⟨b, rfl, .inl ⟨c, rfl, h.symm⟩⟩
      · exact .inl ⟨⟨n, rfl, hn⟩, h.symm⟩
    | waits n c =>
      simp only [hb, hp] at h
      split_ifs at h with hn hfree
      · subst hn
        exact .inr ⟨b, rfl, .inr (.inl ⟨c, rfl, hfree, (Option.some.inj h).symm⟩)⟩
      · exact .inl ⟨⟨n, rfl, hn⟩, (Option.some.inj h).symm⟩
    | inside n todo =>
      simp only [hb, hp] at h
      cases todo with
      | cons w todo =>
        simp only [Option.some.injEq] at h
        split_ifs at h with hn
        · subst hn
          exact .inr ⟨b, rfl, .inr (.inr (.inl ⟨w, todo, rfl, h.symm⟩))⟩
        · exact .inl ⟨⟨n, rfl, hn⟩, h.symm⟩
      | nil =>
        simp only [Option.some.injEq] at h
        split_ifs at h with hn
        · subst hn
          exact .inr ⟨b, rfl, .inr (.inr (.inr ⟨rfl, h.symm⟩))⟩
        · exact .inl ⟨⟨n, rfl, hn⟩, h.symm⟩

theorem step_some {s s' : Logging} {a : Turn} (h : s.step a = some s') : s.turn a = some s' := by
  unfold step at h
  split_ifs at h
  exact h

end Logging

end Sphere.Log
