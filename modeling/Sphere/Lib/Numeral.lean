import Mathlib.Data.Nat.Digits.Lemmas
import Mathlib.Tactic

/-! Decimal numerals as byte strings: the canonical numeral of a natural number
and the value a run of digits denotes, leading zeros allowed. -/

namespace Lib.Numeral

def isDigit (c : UInt8) : Bool := 48 ≤ c && c ≤ 57

/-- The number a run of decimal digits denotes. -/
def value (ds : List UInt8) : ℕ := ds.foldl (fun n c => 10 * n + (c.toNat - 48)) 0

def digitByte (d : ℕ) : UInt8 := UInt8.ofNat (48 + d)

/-- The canonical decimal numeral: no leading zero, `0` for zero. -/
def decimal (n : ℕ) : List UInt8 :=
  if n = 0 then [48] else (Nat.digits 10 n).reverse.map digitByte

theorem digitByte_toNat {d : ℕ} (hd : d < 10) : (digitByte d).toNat = 48 + d := by
  simp only [digitByte, UInt8.toNat_ofNat']
  omega

theorem isDigit_iff (c : UInt8) : isDigit c = true ↔ 48 ≤ c.toNat ∧ c.toNat ≤ 57 := by
  simp [isDigit, UInt8.le_iff_toNat_le]

theorem isDigit_digitByte {d : ℕ} (hd : d < 10) : isDigit (digitByte d) = true := by
  rw [isDigit_iff, digitByte_toNat hd]
  omega

theorem value_snoc (ds : List UInt8) (c : UInt8) :
    value (ds ++ [c]) = 10 * value ds + (c.toNat - 48) := by
  simp [value, List.foldl_append]

theorem value_digits (n : ℕ) : value ((Nat.digits 10 n).reverse.map digitByte) = n := by
  induction n using Nat.strong_induction_on with
  | _ n ih =>
    rcases Nat.eq_zero_or_pos n with rfl | hn
    · simp [value]
    · rw [Nat.digits_def' (by norm_num) hn, List.reverse_cons, List.map_append, List.map_singleton,
        value_snoc, ih (n / 10) (by omega), digitByte_toNat (by omega)]
      omega

theorem value_decimal (n : ℕ) : value (decimal n) = n := by
  unfold decimal
  split_ifs with h
  · subst h; rfl
  · exact value_digits n

theorem decimal_ne_nil (n : ℕ) : decimal n ≠ [] := by
  unfold decimal
  split_ifs with h
  · simp
  · simpa [Nat.digits_eq_nil_iff_eq_zero] using h

theorem isDigit_of_mem_decimal {n : ℕ} {c : UInt8} (hc : c ∈ decimal n) : isDigit c = true := by
  unfold decimal at hc
  split_ifs at hc with h
  · rw [List.mem_singleton] at hc
    subst hc; decide
  · obtain ⟨d, hd, rfl⟩ := List.mem_map.mp hc
    exact isDigit_digitByte (Nat.digits_lt_base (by norm_num) (List.mem_reverse.mp hd))

end Lib.Numeral
