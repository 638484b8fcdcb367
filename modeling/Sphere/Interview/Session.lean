import Sphere.Interview.Fields

/-! `main` of `task.cpp` from its first prompt on: the name of the file, and then one command a
line until the input ends, or a command ends the program. -/

namespace Sphere.Interview

open Lib

def LF : UInt8 := 10

/-- How `main` ends: with a return code, or by a command. -/
inductive Exit
  | returned (code : ℤ)
  | stopped (stop : Stop)
  deriving DecidableEq, Repr

/-- `while (std::getline(std::cin, str_command))`; each round takes a part of the input or is
the last. -/
def commandLoop (input cin : IStream) (str_command : List UInt8) : ℕ → List Output × Option Stop
  | 0 => ([], none)
  | rounds + 1 =>
    let (str_command, cin) := cin.getline str_command LF
    if cin.failbit then ([], none)
    else
      match execute input str_command with
      | .error stop => ([], some stop)
      | .ok (out, input) => (commandLoop input cin str_command rounds).map (out ++ ·) id

/-- `files` are the files that can be opened, with what they have. -/
def main (files : List UInt8 → Option (List UInt8)) (typed : List UInt8) : List Output × Exit :=
  let (filename, cin) := (IStream.opened typed).getline [] LF
  let asked := [.text "Please enter filename:\n"]
  match files filename with
  | none => (asked ++ [.text "Cannot open file with such name!", .endl], .returned (-1))
  | some content =>
    let (out, stop) := commandLoop (IStream.opened content) cin [] (typed.length + 2)
    (asked ++ .text "Please enter command:\n" :: out, stop.elim (.returned 0) .stopped)

/-! What is typed, line by line. -/

/-- The lines of a text, of which the last one may lack its end. -/
def linesOf (text : List UInt8) : List (List UInt8) :=
  if (text.splitOn LF).getLast? = some [] then (text.splitOn LF).dropLast else text.splitOn LF

/-- What a line is replied, or how it ends the program. A number that no `int` holds is an
exception, and the largest `int` one more than the loop counts to. -/
inductive Responds (content line : List UInt8) : Except Stop (List Output) → Prop
  | other : (∀ q, ¬ Denotes line q) → Responds content line (.ok [.text "Unknown command!", .endl])
  | byte (q : COMMAND × Query) : Denotes line q → ¬ (q.2.A ≠ 0xFF ∧ q.2.B ≠ 0xFF) →
      Responds content line (.ok [.text "Unknown command!", .endl])
  | reply (q : COMMAND × Query) : Denotes line q → q.2.A ≠ 0xFF ∧ q.2.B ≠ 0xFF →
      q.2.line < INT_MAX → Responds content line (.ok (reply content q))
  | overflow (q : COMMAND × Query) : Denotes line q → q.2.A ≠ 0xFF ∧ q.2.B ≠ 0xFF →
      q.2.line = INT_MAX → Responds content line (.error .overflow)
  | outOfRange (q : COMMAND × Query) : Denotes line q → q.2.A ≠ 0xFF ∧ q.2.B ≠ 0xFF →
      INT_MAX < q.2.line → Responds content line (.error (.uncaught .outOfRange))

/-- Every line is replied to as if it were the only one, up to one that ends the program. -/
inductive Session (content : List UInt8) :
    List (List UInt8) → List Output → Option Stop → Prop
  | done : Session content [] [] none
  | line {line : List UInt8} {lines : List (List UInt8)} {out outs : List Output}
      {stop : Option Stop} : Responds content line (.ok out) →
      Session content lines outs stop → Session content (line :: lines) (out ++ outs) stop
  | stop {line : List UInt8} (lines : List (List UInt8)) {stop : Stop} :
      Responds content line (.error stop) → Session content (line :: lines) [] (some stop)

theorem execute_unknown {content line : List UInt8} (h : parse line = .ok unknown) :
    execute (IStream.opened content) line =
      .ok ([.text "Unknown command!", .endl], IStream.opened content) := by
  unfold execute
  rw [h]
  rfl

theorem execute_responds (content line : List UInt8) : ∃ r, Responds content line r ∧
    execute (IStream.opened content) line = r.map fun out => (out, IStream.opened content) := by
  by_cases hdenotes : ∃ q, Denotes line q
  · obtain ⟨q, hq⟩ := hdenotes
    have hparse := parse_denotes hq
    by_cases hbytes : q.2.A ≠ 0xFF ∧ q.2.B ≠ 0xFF
    · rw [if_pos hbytes] at hparse
      rcases Nat.lt_trichotomy q.2.line INT_MAX with hlt | heq | hgt
      · refine ⟨_, .reply q hq hbytes hlt, ?_⟩
        rw [if_pos hlt.le] at hparse
        unfold execute
        rw [hparse]
        dsimp only
        rw [if_neg hq.ne_unknown, findField_eq hlt]
        rfl
      · refine ⟨_, .overflow q hq hbytes heq, ?_⟩
        rw [if_pos heq.le] at hparse
        unfold execute findField
        rw [hparse]
        dsimp only
        rw [if_neg hq.ne_unknown, if_neg (by omega)]
        rfl
      · refine ⟨_, .outOfRange q hq hbytes hgt, ?_⟩
        rw [if_neg (by omega)] at hparse
        unfold execute
        rw [hparse]
        rfl
    · rw [if_neg hbytes] at hparse
      exact ⟨_, .byte q hq hbytes, execute_unknown hparse⟩
  · have hnone : ∀ q, ¬ Denotes line q := fun q hq => hdenotes ⟨q, hq⟩
    exact ⟨_, .other hnone, execute_unknown (parse_other hnone)⟩

theorem linesOf_last {rest : List UInt8} (h : LF ∉ rest) :
    linesOf rest = if rest = [] then [] else [rest] := by
  unfold linesOf
  rw [List.splitOn_eq_singleton h]
  simp

theorem linesOf_line {line : List UInt8} (h : LF ∉ line) (rest : List UInt8) :
    linesOf (line ++ LF :: rest) = line :: linesOf rest := by
  have hne := List.splitOn_ne_nil LF rest
  unfold linesOf
  rw [List.splitOn_append_cons_self_of_not_mem h, List.getLast?_cons_of_ne_nil hne,
    List.dropLast_cons_of_ne_nil hne]
  split_ifs <;> rfl

theorem commandLoop_eof (input : IStream) (content rest str : List UInt8) (failbit : Bool)
    (rounds : ℕ) : commandLoop input ⟨content, rest, true, failbit⟩ str rounds = ([], none) := by
  cases rounds <;> rfl

/-- What is typed is its last line, or has the end of its first one. -/
theorem line_cases (rest : List UInt8) :
    LF ∉ rest ∨ ∃ line rest', LF ∉ line ∧ rest = line ++ LF :: rest' := by
  by_cases h : LF ∈ rest
  · obtain ⟨line, rest', hrest, hline⟩ := List.eq_append_cons_of_mem h
    exact .inr ⟨line, rest', hline, hrest⟩
  · exact .inl h

/-- A command is replied to, and then what follows it is. -/
theorem commandLoop_line {content line str : List UInt8} {cin cin' : IStream} {rounds : ℕ}
    {lines : List (List UInt8)} (hread : cin.getline str LF = (line, cin'))
    (hcin : cin'.failbit = false)
    (ih : ∃ outs stop, Session content lines outs stop ∧
      commandLoop (IStream.opened content) cin' line rounds = (outs, stop)) :
    ∃ outs stop, Session content (line :: lines) outs stop ∧
      commandLoop (IStream.opened content) cin str (rounds + 1) = (outs, stop) := by
  obtain ⟨r, hresponds, hexecute⟩ := execute_responds content line
  obtain ⟨outs, stop, hsession, hloop⟩ := ih
  rw [commandLoop, hread]
  dsimp only
  rw [hcin, if_neg Bool.false_ne_true, hexecute]
  rcases r with stop' | out
  · exact ⟨[], some stop', .stop lines hresponds, rfl⟩
  · exact ⟨out ++ outs, stop, .line hresponds hsession, by simp [Except.map, hloop]⟩

theorem commandLoop_session (content typed rest str : List UInt8) {rounds : ℕ}
    (h : rest.length < rounds) : ∃ outs stop, Session content (linesOf rest) outs stop ∧
      commandLoop (IStream.opened content) ⟨typed, rest, false, false⟩ str rounds =
        (outs, stop) := by
  induction rounds generalizing rest str with
  | zero => omega
  | succ rounds ih =>
    rcases line_cases rest with hlast | ⟨line, rest, hline, rfl⟩
    · rw [linesOf_last hlast]
      rcases rest with _ | ⟨c, rest⟩
      · exact ⟨[], none, .done, rfl⟩
      · exact commandLoop_line (IStream.getline_last hlast typed str) rfl
          ⟨[], none, .done, commandLoop_eof _ _ _ _ _ _⟩
    · rw [linesOf_line hline]
      rw [List.length_append, List.length_cons] at h
      exact commandLoop_line (IStream.getline_delim hline typed rest str) rfl
        (ih rest line (by omega))

/-- The first line names the file, and each line after it is a command of its own. -/
theorem main_session (files : List UInt8 → Option (List UInt8)) (typed : List UInt8) :
    (files ((linesOf typed).headD []) = none ∧ main files typed =
      ([.text "Please enter filename:\n", .text "Cannot open file with such name!", .endl],
        .returned (-1))) ∨
    ∃ content outs stop, files ((linesOf typed).headD []) = some content ∧
      Session content (linesOf typed).tail outs stop ∧ main files typed =
        (.text "Please enter filename:\n" :: .text "Please enter command:\n" :: outs,
          stop.elim (.returned 0) .stopped) := by
  have hread : ∃ filename cin, (IStream.opened typed).getline [] LF = (filename, cin) ∧
      (linesOf typed).headD [] = filename ∧ ∀ content, ∃ outs stop,
        Session content (linesOf typed).tail outs stop ∧
          commandLoop (IStream.opened content) cin [] (typed.length + 2) = (outs, stop) := by
    rcases line_cases typed with hlast | ⟨filename, rest, hfilename, rfl⟩
    · refine ⟨typed, _, IStream.getline_last hlast typed [], ?_, fun content => ?_⟩
      · rw [linesOf_last hlast]
        cases typed <;> rfl
      · refine ⟨[], none, ?_, commandLoop_eof _ _ _ _ _ _⟩
        rw [linesOf_last hlast]
        cases typed <;> exact .done
    · refine ⟨filename, _, IStream.getline_delim hfilename _ rest [], ?_, fun content => ?_⟩
      · rw [linesOf_line hfilename]
        rfl
      · rw [linesOf_line hfilename]
        refine commandLoop_session content _ rest [] ?_
        rw [List.length_append, List.length_cons]
        omega
  obtain ⟨filename, cin, hgetline, hhead, hloop⟩ := hread
  unfold main
  rw [hgetline, hhead]
  dsimp only
  rcases hfile : files filename with _ | content
  · exact .inl ⟨rfl, rfl⟩
  · obtain ⟨outs, stop, hsession, hrun⟩ := hloop content
    refine .inr ⟨content, outs, stop, rfl, hsession, ?_⟩
    dsimp only
    rw [hrun]
    rfl

end Sphere.Interview
