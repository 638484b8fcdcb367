import Mathlib.Data.Nat.Digits.Lemmas
import Mathlib.Tactic

/-! Integers of a fixed width in memory, the lowest byte first, the signed ones in two's
complement. -/

namespace Lib.LittleEndian

/-- What the bytes denote as an unsigned number. -/
def value (bs : List UInt8) : ℕ := Nat.ofDigits 256 (bs.map UInt8.toNat)

/-- The `w` lowest bytes of a number. -/
def bytes : ℕ → ℕ → List UInt8
  | 0, _ => []
  | w + 1, n => UInt8.ofNat n :: bytes w (n / 256)

theorem bytes_length (w n : ℕ) : (bytes w n).length = w := by
  induction w generalizing n with
  | zero => rfl
  | succ w ih => rw [bytes, List.length_cons, ih]

theorem value_cons (b : UInt8) (bs : List UInt8) : value (b :: bs) = b.toNat + 256 * value bs :=
  Nat.ofDigits_cons ..

theorem value_bytes (w n : ℕ) : value (bytes w n) = n % 256 ^ w := by
  induction w generalizing n with
  | zero => rw [pow_zero, Nat.mod_one]; rfl
  | succ w ih =>
    have hlow : (UInt8.ofNat n).toNat = n % 256 := UInt8.toNat_ofNat'
    rw [bytes, value_cons, ih, hlow, pow_succ', Nat.mod_mul]

/-- What the bytes denote as a signed number. -/
def load (bs : List UInt8) : ℤ := Int.bmod (value bs) (256 ^ bs.length)

/-- The bytes of a signed number. -/
def store (w : ℕ) (x : ℤ) : List UInt8 := bytes w (x % (256 ^ w : ℕ)).toNat

theorem store_length (w : ℕ) (x : ℤ) : (store w x).length = w := bytes_length ..

theorem load_store {w : ℕ} {x : ℤ} (hlo : -(256 ^ w : ℕ) ≤ x * 2) (hhi : x * 2 < (256 ^ w : ℕ)) :
    load (store w x) = x := by
  have hpos : 0 < (256 : ℕ) ^ w := by positivity
  have hmod : ((x % (256 ^ w : ℕ)).toNat : ℤ) = x % (256 ^ w : ℕ) :=
    Int.toNat_of_nonneg (Int.emod_nonneg _ (by exact_mod_cast hpos.ne'))
  have hlt : (x % (256 ^ w : ℕ)).toNat < 256 ^ w := by
    have h := Int.emod_lt_of_pos x (b := (256 ^ w : ℕ)) (by exact_mod_cast hpos)
    omega
  unfold load
  rw [store_length]
  unfold store
  rw [value_bytes, Nat.mod_eq_of_lt hlt, hmod, Int.emod_bmod]
  exact Int.bmod_eq_of_le_mul_two hlo hhi

end Lib.LittleEndian
