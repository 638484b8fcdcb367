import Sphere.Interview.Command

/-! `find_field` of `task.cpp` over a file that is asked again and again, and the loop of
`main` that asks it. -/

namespace Sphere.Interview

open Lib

def TAB : UInt8 := 9

/-- What is put into `std::cout`. -/
inductive Output
  | text (s : String)
  | field (bytes : List UInt8)
  | endl
  deriving DecidableEq, Repr

structure Found where
  field : List UInt8
  input : IStream
  cout : List Output
  deriving DecidableEq, Repr

/-- The rounds of the loop that are left, with the field of the round before. -/
def fieldLoop (input : IStream) (field : List UInt8) : ℕ → Found
  | 0 => ⟨field, input, []⟩
  | rounds + 1 =>
    if input.good then
      let (field, input) := input.getline field TAB
      fieldLoop input field rounds
    else ⟨[], input, [.text "No such field!"]⟩

/-- The loop runs to `N + 1`, which is nothing when it does not fit an `int`. -/
def findField (input : IStream) (N : ℕ) : Option Found :=
  if N < INT_MAX then
    let found := fieldLoop input [] (N + 1)
    some { found with input := found.input.clear.seekg0 }
  else none

/-- Queries one after another on one stream, with what each of them returns and prints. -/
def findFields (input : IStream) : List ℕ → Option (List (List UInt8 × List Output) × IStream)
  | [] => some ([], input)
  | N :: Ns => do
    let found ← findField input N
    let (answers, input) ← findFields found.input Ns
    return ((found.field, found.cout) :: answers, input)

/-- The field of a content that is split at every tab, or the report that there is none. -/
def answer (content : List UInt8) (N : ℕ) : List UInt8 × List Output :=
  if h : N < (content.splitOn TAB).length then ((content.splitOn TAB)[N], [])
  else ([], [.text "No such field!"])

variable {content : List UInt8}

theorem answer_eq (content : List UInt8) (N : ℕ) : answer content N =
    ((content.splitOn TAB)[N]?.elim ([], [.text "No such field!"]) fun field => (field, [])) := by
  unfold answer
  split_ifs with h
  · rw [List.getElem?_eq_getElem h, Option.elim_some]
  · rw [List.getElem?_eq_none (by omega), Option.elim_none]

theorem fieldLoop_content (rounds : ℕ) (input : IStream) (field : List UInt8) :
    (fieldLoop input field rounds).input.content = input.content := by
  induction rounds generalizing input field with
  | zero => rfl
  | succ rounds ih =>
    rw [fieldLoop]
    split_ifs
    · rw [ih, IStream.getline_content]
    · rfl

/-- What is left is the last field, or a field before a tab. -/
theorem field_cases (rest : List UInt8) :
    TAB ∉ rest ∨ ∃ field rest', TAB ∉ field ∧ rest = field ++ TAB :: rest' := by
  by_cases h : TAB ∈ rest
  · obtain ⟨field, rest', hrest, hfield⟩ := List.eq_append_cons_of_mem h
    exact .inr ⟨field, rest', hfield, hrest⟩
  · exact .inl h

/-- Behind the last field nothing is read. -/
theorem fieldLoop_ended {input : IStream} (h : input.good = false) (field : List UInt8)
    (rounds : ℕ) : fieldLoop input field (rounds + 1) = ⟨[], input, [.text "No such field!"]⟩ := by
  rw [fieldLoop, if_neg (by simp [h])]

/-- Each round reads one field of what is left, the last one up to the end. -/
theorem fieldLoop_eq (content : List UInt8) (N : ℕ) (rest field : List UInt8) :
    ((fieldLoop ⟨content, rest, false, false⟩ field (N + 1)).field,
      (fieldLoop ⟨content, rest, false, false⟩ field (N + 1)).cout) = answer rest N := by
  have hgood : ∀ rest, (⟨content, rest, false, false⟩ : IStream).good = true := fun _ => rfl
  induction N generalizing rest field with
  | zero =>
    rw [fieldLoop, if_pos (hgood rest), answer_eq]
    rcases field_cases rest with hlast | ⟨line, rest, hline, rfl⟩
    · rw [IStream.getline_last hlast, List.splitOn_eq_singleton hlast]
      rfl
    · rw [IStream.getline_delim hline, List.splitOn_append_cons_self_of_not_mem hline]
      rfl
  | succ N ih =>
    rw [fieldLoop, if_pos (hgood rest), answer_eq]
    rcases field_cases rest with hlast | ⟨line, rest, hline, rfl⟩
    · rw [IStream.getline_last hlast, List.splitOn_eq_singleton hlast]
      dsimp only
      rw [fieldLoop_ended rfl]
      rfl
    · rw [IStream.getline_delim hline, List.splitOn_append_cons_self_of_not_mem hline,
        List.getElem?_cons_succ, ← answer_eq]
      exact ih rest line

theorem findField_eq {N : ℕ} (h : N < INT_MAX) : findField (IStream.opened content) N =
    some ⟨(answer content N).1, IStream.opened content, (answer content N).2⟩ := by
  have hfound := fieldLoop_eq content N content []
  have hcontent := fieldLoop_content (N + 1) (IStream.opened content) []
  unfold findField
  dsimp only
  rw [if_pos h, ← hfound, IStream.clear_seekg0, hcontent]
  rfl

theorem findFields_eq_split (content : List UInt8) {Ns : List ℕ} (h : ∀ N ∈ Ns, N < INT_MAX) :
    findFields (IStream.opened content) Ns =
      some (Ns.map (answer content), IStream.opened content) := by
  induction Ns with
  | nil => rfl
  | cons N Ns ih =>
    rw [List.forall_mem_cons] at h
    rw [findFields, findField_eq h.1]
    simp only [Option.bind_eq_bind, Option.bind_some, ih h.2]
    rfl

/-- A trailing tab, asked out of order and once beyond the last field. -/
theorem findFields_eq_trailing :
    findFields (IStream.opened [97, TAB]) [1, 2, 0] =
      some ([([], []), ([], [.text "No such field!"]), ([97], [])], IStream.opened [97, TAB]) :=
  findFields_eq_split [97, TAB] (by decide)

/-! The loop of `main`. -/

def tolower (c : UInt8) : UInt8 := if 65 ≤ c ∧ c ≤ 90 then c + 32 else c

def toupper (c : UInt8) : UInt8 := if 97 ≤ c ∧ c ≤ 122 then c - 32 else c

/-- What a command makes of a character of its field. -/
def change (q : COMMAND × Query) (c : UInt8) : UInt8 :=
  match q.1 with
  | .LOWER_CASE => tolower c
  | .UPPER_CASE => toupper c
  | .REPLACE => if c = q.2.A then q.2.B else c
  | .UNKNOWN => c

/-- What ends `main` before its commands do. -/
inductive Stop
  | uncaught (e : Exception)
  | overflow
  deriving DecidableEq, Repr

def execute (input : IStream) (str_command : List UInt8) : Except Stop (List Output × IStream) :=
  match parse str_command with
  | .error e => .error (.uncaught e)
  | .ok q =>
    if q.1 = .UNKNOWN then .ok ([.text "Unknown command!", .endl], input)
    else
      match findField input q.2.line with
      | none => .error .overflow
      | some found =>
        .ok (found.cout ++ [.field (found.field.map (change q)), .endl], found.input)

/-- The reply to a command. -/
def reply (content : List UInt8) (q : COMMAND × Query) : List Output :=
  (answer content q.2.line).2 ++ [.field ((answer content q.2.line).1.map (change q)), .endl]

end Sphere.Interview
