import Sphere.Lib.IStream
import Sphere.Lib.Numeral
import Mathlib.Data.List.TakeWhile

/-! `parse` of `task.cpp`: the commands `N:u`, `N:U` and `N:RAB` as a string stream reads
them. -/

namespace Sphere.Interview

open Lib Lib.Numeral
open Lib.IStream (EOF)

inductive COMMAND
  | UNKNOWN
  | LOWER_CASE
  | UPPER_CASE
  | REPLACE
  deriving DecidableEq, Repr

structure Query where
  line : ℕ := 0
  A : UInt8 := 0
  B : UInt8 := 0
  deriving DecidableEq, Repr

/-! Characters. -/

def COLON : UInt8 := 58
def LOWER : UInt8 := 117
def UPPER : UInt8 := 85
def REPLACING : UInt8 := 82

/-- `isdigit` of an `int`. -/
def isdigit (c : ℤ) : Bool := 48 ≤ c ∧ c ≤ 57

/-- A `char` that is made an `int`: the type is signed. -/
def promote (c : UInt8) : ℤ := if c.toNat < 128 then c.toNat else c.toNat - 256

/-- An `int` that is made a `char`. -/
def narrow (c : ℤ) : UInt8 := UInt8.ofNat (c % 256).toNat

def INT_MAX : ℕ := 2147483647

inductive Exception
  | outOfRange
  deriving DecidableEq, Repr

/-- `stoi` of a string of digits. -/
def stoi (N : List UInt8) : Except Exception ℕ :=
  if value N ≤ INT_MAX then .ok (value N) else .error .outOfRange

theorem isdigit_ne_EOF {c : ℤ} (h : isdigit c = true) : c ≠ EOF := by
  rintro rfl
  exact absurd h (by decide)

/-- `while (isdigit(iss.peek())) N += iss.get();` -/
def readDigits (N : List UInt8) (iss : IStream) : List UInt8 × IStream :=
  if isdigit iss.peek.1 then
    readDigits (N ++ [narrow iss.peek.2.get.1]) iss.peek.2.get.2
  else (N, iss.peek.2)
termination_by iss.rest.length
decreasing_by exact IStream.get_peek_length (isdigit_ne_EOF ‹_›)

abbrev Parsed := Except Exception (COMMAND × Query)

/-- `{ COMMAND::UNKNOWN, {}}` -/
def unknown : COMMAND × Query := (.UNKNOWN, {})

/-- What `parse` does behind the number. -/
def parseRest (N : List UInt8) (iss : IStream) : Parsed :=
  let (c, iss) := iss.peek
  if c ≠ COLON.toNat then .ok unknown
  else
    let iss := iss.ignore
    let (c, iss) := iss.peek
    if c = LOWER.toNat then
      let (_, iss) := iss.get
      if iss.peek.1 = EOF then do return (.LOWER_CASE, { line := ← stoi N }) else .ok unknown
    else
      let (c, iss) := iss.peek
      if c = UPPER.toNat then
        let (_, iss) := iss.get
        if iss.peek.1 = EOF then do return (.UPPER_CASE, { line := ← stoi N }) else .ok unknown
      else
        let (c, iss) := iss.peek
        if c = REPLACING.toNat then
          let (_, iss) := iss.get
          let (A, iss) := iss.get
          let A := narrow A
          let (B, iss) := iss.get
          let B := narrow B
          -- the bytes are compared with `EOF` as `char`s
          if promote A ≠ EOF ∧ promote B ≠ EOF ∧ iss.peek.1 = EOF then
            do return (.REPLACE, ⟨← stoi N, A, B⟩)
          else .ok unknown
        else .ok unknown

/-- Every path through the body of the loop leaves it. -/
def parse (str_command : List UInt8) : Parsed :=
  match (IStream.opened str_command).extract with
  | (none, _) => .ok unknown
  | (some c, iss) =>
    if isdigit (promote c) then
      let (N, iss) := readDigits [c] iss
      parseRest N iss
    else .ok unknown

/-! The grammar. -/

/-- What may stand behind the number. -/
inductive Tail (n : ℕ) : List UInt8 → COMMAND × Query → Prop
  | lower : Tail n [COLON, LOWER] (.LOWER_CASE, { line := n })
  | upper : Tail n [COLON, UPPER] (.UPPER_CASE, { line := n })
  | replace (A B : UInt8) : Tail n [COLON, REPLACING, A, B] (.REPLACE, ⟨n, A, B⟩)

/-- The string is one or more digits and a command on the field of that number. -/
def Denotes (s : List UInt8) (q : COMMAND × Query) : Prop :=
  ∃ ds tail, ds ≠ [] ∧ (∀ c ∈ ds, isDigit c = true) ∧ s = ds ++ tail ∧ Tail (value ds) tail q

theorem Tail.head {n : ℕ} {tail : List UInt8} {q : COMMAND × Query} (h : Tail n tail q) :
    ∃ tail', tail = COLON :: tail' := by
  cases h <;> exact ⟨_, rfl⟩

theorem denotes_iff (s : List UInt8) (q : COMMAND × Query) :
    Denotes s q ↔ s.takeWhile isDigit ≠ [] ∧
      Tail (value (s.takeWhile isDigit)) (s.dropWhile isDigit) q := by
  constructor
  · rintro ⟨ds, tail, hne, hds, rfl, htail⟩
    obtain ⟨tail', rfl⟩ := htail.head
    have hcolon : ¬ isDigit COLON = true := by decide
    rw [List.takeWhile_append_of_pos hds, List.takeWhile_cons_of_neg hcolon, List.append_nil,
      List.dropWhile_append_of_pos hds, List.dropWhile_cons_of_neg hcolon]
    exact ⟨hne, htail⟩
  · rintro ⟨hne, htail⟩
    exact ⟨_, _, hne, fun c hc => List.mem_takeWhile_imp hc,
      List.takeWhile_append_dropWhile.symm, htail⟩

/-! What the stream reads. -/

theorem narrow_natCast (b : UInt8) : narrow b.toNat = b := by
  have hlt : b.toNat < 256 := b.toNat_lt
  rw [narrow, show ((b.toNat : ℤ) % 256).toNat = b.toNat by omega, UInt8.ofNat_toNat]

theorem isdigit_natCast (b : UInt8) : isdigit b.toNat = isDigit b := by
  rw [Bool.eq_iff_iff, isDigit_iff]
  unfold isdigit
  simp

theorem isdigit_promote (b : UInt8) : isdigit (promote b) = isDigit b := by
  rw [Bool.eq_iff_iff, isDigit_iff]
  have hlt : b.toNat < 256 := b.toNat_lt
  rw [isdigit, decide_eq_true_eq, promote]
  rcases Nat.lt_or_ge b.toNat 128 with h | h
  · rw [if_pos h]
    omega
  · rw [if_neg h.not_gt]
    omega

theorem promote_eq_EOF (b : UInt8) : promote b = EOF ↔ b = 0xFF := by
  have hlt : b.toNat < 256 := b.toNat_lt
  have hmax : b = 0xFF ↔ b.toNat = 255 := UInt8.toNat_inj.symm
  rw [hmax, promote, EOF]
  rcases Nat.lt_or_ge b.toNat 128 with h | h
  · rw [if_pos h]
    omega
  · rw [if_neg h.not_gt]
    omega

theorem readDigits_eq (content rest N : List UInt8) :
    readDigits N ⟨content, rest, false, false⟩ = (N ++ rest.takeWhile isDigit,
      ⟨content, rest.dropWhile isDigit, (rest.dropWhile isDigit).isEmpty, false⟩) := by
  induction rest generalizing N with
  | nil =>
    rw [readDigits]
    simp [isdigit, EOF]
  | cons b rest ih =>
    rw [readDigits]
    simp only [IStream.peek_cons, isdigit_natCast, IStream.get_cons, narrow_natCast]
    split_ifs with hb
    · rw [ih, List.takeWhile_cons_of_pos hb, List.dropWhile_cons_of_pos hb, List.append_assoc]
      rfl
    · rw [List.takeWhile_cons_of_neg hb, List.dropWhile_cons_of_neg hb, List.append_nil]
      rfl

theorem parse_eq (s : List UInt8) : parse s =
    if s.takeWhile isDigit = [] then .ok unknown
    else parseRest (s.takeWhile isDigit)
      ⟨s, s.dropWhile isDigit, (s.dropWhile isDigit).isEmpty, false⟩ := by
  cases s with
  | nil => rfl
  | cons c rest =>
    have hextract : (IStream.opened (c :: rest)).extract =
        (some c, ⟨c :: rest, rest, false, false⟩) := rfl
    unfold parse
    rw [hextract]
    simp only [isdigit_promote, readDigits_eq]
    by_cases hc : isDigit c = true
    · rw [if_pos hc, List.takeWhile_cons_of_pos hc, List.dropWhile_cons_of_pos hc,
        if_neg (by simp)]
      rfl
    · rw [if_neg hc, List.takeWhile_cons_of_neg hc, if_pos rfl]

/-- A character that was looked at is compared with a byte. -/
theorem natCast_eq_iff (b c : UInt8) : (b.toNat : ℤ) = c.toNat ↔ b = c := by
  rw [Nat.cast_inj, UInt8.toNat_inj]

theorem EOF_ne_natCast (n : ℕ) : EOF ≠ n := (IStream.natCast_ne_EOF n).symm

/-- Behind `N:` and `u` or `U` nothing may follow. -/
theorem peek_eq_EOF (content rest : List UInt8) :
    (⟨content, rest, false, false⟩ : IStream).peek.1 = EOF ↔ rest = [] := by
  cases rest with
  | nil => simp
  | cons b rest => simp [IStream.natCast_ne_EOF]

theorem parseRest_tail (content : List UInt8) {N tail : List UInt8} {q : COMMAND × Query}
    (h : Tail (value N) tail q) :
    parseRest N ⟨content, tail, false, false⟩ =
      if q.2.A ≠ 0xFF ∧ q.2.B ≠ 0xFF then (stoi N).map fun _ => q else .ok unknown := by
  have hstoi : ∀ f : ℕ → COMMAND × Query,
      (do return f (← stoi N) : Parsed) = (stoi N).map fun _ => f (value N) := by
    intro f
    unfold stoi
    split_ifs <;> rfl
  have hzero : (0 : UInt8) ≠ 0xFF := by decide
  cases h with
  | lower =>
    rw [if_pos ⟨hzero, hzero⟩]
    exact hstoi fun n => (.LOWER_CASE, { line := n })
  | upper =>
    rw [if_pos ⟨hzero, hzero⟩]
    exact hstoi fun n => (.UPPER_CASE, { line := n })
  | replace A B =>
    have hlower : REPLACING ≠ LOWER := by decide
    have hupper : REPLACING ≠ UPPER := by decide
    simp only [parseRest, IStream.peek_cons, IStream.peek_nil, IStream.ignore_cons,
      IStream.get_cons, narrow_natCast, natCast_eq_iff, ne_eq, not_true_eq_false, if_false, hlower,
      hupper, if_true, and_true, promote_eq_EOF]
    rw [hstoi fun n => (.REPLACE, ⟨n, A, B⟩)]

theorem parseRest_letter (content N : List UInt8) {c : UInt8} {rest : List UInt8} {n : ℕ}
    (h : ∀ q, ¬ Tail n (COLON :: c :: rest) q) :
    parseRest N ⟨content, COLON :: c :: rest, false, false⟩ = .ok unknown := by
  unfold parseRest
  simp only [IStream.peek_cons, IStream.ignore_cons, IStream.get_cons, ne_eq, natCast_eq_iff,
    not_true_eq_false, if_false]
  split_ifs with hlower hend hupper hend hreplacing hend
  · subst hlower
    rw [peek_eq_EOF] at hend
    subst hend
    exact absurd .lower (h _)
  · exact if_neg hend
  · subst hupper
    rw [peek_eq_EOF] at hend
    subst hend
    exact absurd .upper (h _)
  · exact if_neg hend
  · subst hreplacing
    obtain ⟨hA, hB, hpeek⟩ := hend
    match rest, h with
    | [], _ => exact absurd rfl hA
    | [A], _ => exact absurd rfl hB
    | [A, B], h => exact absurd (.replace A B) (h _)
    | A :: B :: d :: rest, _ => exact absurd hpeek (IStream.natCast_ne_EOF d.toNat)
  · exact if_neg hend
  · rfl

/-- What is no tail leads out of the loop wherever it goes wrong. -/
theorem parseRest_other (content N : List UInt8) {tail : List UInt8} {n : ℕ}
    (h : ∀ q, ¬ Tail n tail q) :
    parseRest N ⟨content, tail, tail.isEmpty, false⟩ = .ok unknown := by
  match tail, h with
  | [], _ => simp [parseRest, EOF_ne_natCast]
  | c :: rest, h =>
    rw [List.isEmpty_cons]
    by_cases hcolon : c = COLON
    · subst hcolon
      match rest, h with
      | [], _ => simp [parseRest, EOF_ne_natCast]
      | c :: rest, h => exact parseRest_letter content N h
    · simp only [parseRest, IStream.peek_cons, ne_eq, natCast_eq_iff, hcolon, not_false_eq_true,
        if_true]

/-! A string that is a command, and one that is none. -/

variable {s : List UInt8} {q q' : COMMAND × Query}

theorem Tail.line {n : ℕ} {tail : List UInt8} (h : Tail n tail q) : q.2.line = n := by
  cases h <;> rfl

theorem Tail.ne_unknown {n : ℕ} {tail : List UInt8} (h : Tail n tail q) : q.1 ≠ .UNKNOWN := by
  cases h <;> simp

theorem Tail.unique {n : ℕ} {tail : List UInt8} (h : Tail n tail q) (h' : Tail n tail q') :
    q = q' := by
  cases h <;> cases h' <;> rfl

theorem Denotes.ne_unknown (h : Denotes s q) : q.1 ≠ .UNKNOWN :=
  ((denotes_iff s q).mp h).2.ne_unknown

theorem Denotes.unique (h : Denotes s q) (h' : Denotes s q') : q = q' :=
  ((denotes_iff s q).mp h).2.unique ((denotes_iff s q').mp h').2

theorem parse_denotes (h : Denotes s q) : parse s =
    if q.2.A ≠ 0xFF ∧ q.2.B ≠ 0xFF then
      if q.2.line ≤ INT_MAX then .ok q else .error .outOfRange
    else .ok unknown := by
  obtain ⟨hne, htail⟩ := (denotes_iff s q).mp h
  have hline := htail.line
  obtain ⟨tail', htail'⟩ := htail.head
  have hcons : (s.dropWhile isDigit).isEmpty = false := by
    rw [htail', List.isEmpty_cons]
  rw [parse_eq, if_neg hne, hcons, parseRest_tail s htail, stoi, hline]
  split_ifs <;> rfl

theorem parse_other (h : ∀ q, ¬ Denotes s q) : parse s = .ok unknown := by
  rw [parse_eq]
  split_ifs with hne
  · rfl
  · refine parseRest_other (n := value (s.takeWhile isDigit)) s _ fun q htail => ?_
    exact h q ((denotes_iff s q).mpr ⟨hne, htail⟩)

/-- `parse` returns, and what it returns is the command that the string is, or unknown. -/
def ParsesExactly (s : List UInt8) : Prop :=
  ∃ r, parse s = .ok r ∧ (∀ q, q.1 ≠ .UNKNOWN → (r = q ↔ Denotes s q)) ∧
    (r.1 = .UNKNOWN → r = unknown)

theorem parse_exactly_iff (s : List UInt8) :
    ParsesExactly s ↔
      ∀ q, Denotes s q → q.2.line ≤ INT_MAX ∧ q.2.A ≠ 0xFF ∧ q.2.B ≠ 0xFF := by
  constructor
  · rintro ⟨r, hr, hcommand, -⟩ q hq
    obtain rfl := (hcommand q hq.ne_unknown).mpr hq
    rw [parse_denotes hq] at hr
    split_ifs at hr with hbytes hline
    · exact ⟨hline, hbytes⟩
    · exact absurd (congrArg Prod.fst (Except.ok.inj hr)).symm hq.ne_unknown
  · intro hall
    by_cases hdenotes : ∃ q, Denotes s q
    · obtain ⟨q, hq⟩ := hdenotes
      obtain ⟨hline, hbytes⟩ := hall q hq
      refine ⟨q, ?_, fun q' _ => ⟨?_, hq.unique⟩, fun hunknown => absurd hunknown hq.ne_unknown⟩
      · rw [parse_denotes hq, if_pos hbytes, if_pos hline]
      · rintro rfl
        exact hq
    · have hnone : ∀ q, ¬ Denotes s q := fun q hq => hdenotes ⟨q, hq⟩
      refine ⟨unknown, parse_other hnone, fun q hq => ⟨?_, fun h => absurd h (hnone q)⟩, ?_⟩
      · rintro rfl
        exact absurd rfl hq
      · exact fun _ => rfl

/-- `2147483648:u` throws, and `0:R` with the byte 255 and an `a` is unknown. -/
theorem parse_inexact :
    (∃ s, parse s = .error .outOfRange ∧ ¬ ParsesExactly s ∧
      s = [50, 49, 52, 55, 52, 56, 51, 54, 52, 56, COLON, LOWER]) ∧
    (∃ s, parse s = .ok unknown ∧ ¬ ParsesExactly s ∧ s = [48, COLON, REPLACING, 0xFF, 97]) := by
  have hbig : Denotes [50, 49, 52, 55, 52, 56, 51, 54, 52, 56, COLON, LOWER]
      (.LOWER_CASE, { line := 2147483648 }) :=
    ⟨[50, 49, 52, 55, 52, 56, 51, 54, 52, 56], _, by decide, List.all_eq_true.mp rfl, rfl, .lower⟩
  have hbyte : Denotes [48, COLON, REPLACING, 0xFF, 97] (.REPLACE, ⟨0, 0xFF, 97⟩) :=
    ⟨[48], _, by decide, List.all_eq_true.mp rfl, rfl, .replace 0xFF 97⟩
  have hthrows := parse_denotes hbig
  have hunknown := parse_denotes hbyte
  refine ⟨⟨_, hthrows, ?_, rfl⟩, ⟨_, hunknown, ?_, rfl⟩⟩
  · rintro ⟨r, hr, -⟩
    rw [hthrows] at hr
    cases hr
  · rintro ⟨r, hr, hcommand, -⟩
    obtain rfl := (hcommand _ hbyte.ne_unknown).mpr hbyte
    rw [hunknown] at hr
    cases hr

end Sphere.Interview
