import Mathlib.Data.Int.Log
import Mathlib.Tactic

/-! Rounding of nonnegative rationals to IEEE binary32, ties to even. The exponent is not
bounded: the numbers met are far from overflow and from the subnormal range. -/

namespace Lib.Binary32

/-- The unit in the last place of a positive rational. -/
def ulp (q : ℚ) : ℚ := 2 ^ (Int.log 2 q - 23)

/-- The nearest integer, and the even one of two. -/
def roundEven (q : ℚ) : ℤ :=
  if q - ⌊q⌋ < 1 / 2 ∨ q - ⌊q⌋ = 1 / 2 ∧ ⌊q⌋ % 2 = 0 then ⌊q⌋ else ⌊q⌋ + 1

def round (q : ℚ) : ℚ := roundEven (q / ulp q) * ulp q

theorem roundEven_intCast (z : ℤ) : roundEven z = z := by
  simp [roundEven]

theorem round_zero : round 0 = 0 := by
  simp [round, roundEven]

/-- A power of two is a binary32 number. -/
theorem round_two_zpow (k : ℤ) : round (2 ^ k) = 2 ^ k := by
  have hulp : ulp (2 ^ k) = 2 ^ (k - 23) := by
    rw [ulp, show (2 : ℚ) = ((2 : ℕ) : ℚ) by norm_num, Int.log_zpow (by norm_num)]
  have hquot : (2 : ℚ) ^ k / 2 ^ (k - 23) = ((2 ^ 23 : ℤ) : ℚ) := by
    rw [← zpow_sub₀ (by norm_num), sub_sub_cancel]
    norm_num
  rw [round, hulp, hquot, roundEven_intCast]
  rw [div_eq_iff (by positivity)] at hquot
  exact hquot.symm

theorem roundEven_le_iff (q : ℚ) (z : ℤ) :
    roundEven q ≤ z ↔ q < z + 1 / 2 ∨ q = z + 1 / 2 ∧ z % 2 = 0 := by
  have hle := Int.floor_le q
  have hlt := Int.lt_floor_add_one q
  rcases lt_trichotomy ⌊q⌋ z with h | h | h
  · -- the next integer up is at most `z`
    have hq : q < z := hlt.trans_le (by exact_mod_cast h)
    refine iff_of_true ?_ (.inl (by linarith))
    unfold roundEven
    split_ifs <;> omega
  · subst h
    unfold roundEven
    split_ifs with hc
    · refine iff_of_true le_rfl ?_
      rcases hc with hc | ⟨hc, he⟩
      · exact .inl (by linarith)
      · exact .inr ⟨by linarith, he⟩
    · refine iff_of_false (by omega) fun hn => hc ?_
      rcases hn with hn | ⟨hn, he⟩
      · exact .inl (by linarith)
      · exact .inr ⟨by linarith, he⟩
  · have hq : (z : ℚ) + 1 ≤ q := le_trans (by exact_mod_cast h) hle
    refine iff_of_false ?_ ?_
    · unfold roundEven
      split_ifs <;> omega
    · rintro (hn | ⟨hn, -⟩) <;> linarith

theorem roundEven_le {q : ℚ} {z : ℤ} (h : q ≤ z) : roundEven q ≤ z :=
  (roundEven_le_iff q z).mpr (.inl (by linarith))

theorem le_roundEven {q : ℚ} {z : ℤ} (h : z ≤ q) : z ≤ roundEven q := by
  by_contra hlt
  have hle : roundEven q ≤ z - 1 := by omega
  rw [roundEven_le_iff] at hle
  push_cast at hle
  rcases hle with hle | ⟨hle, -⟩ <;> linarith

theorem ulp_pos (q : ℚ) : 0 < ulp q := zpow_pos (by norm_num) _

theorem ulp_mul (q : ℚ) (k : ℕ) : 2 ^ k * ulp q = 2 ^ (Int.log 2 q - 23 + k) := by
  rw [ulp, zpow_add₀ (by norm_num), zpow_natCast, mul_comm]

/-- The powers of two around a number. -/
theorem binade {q : ℚ} (h : 0 < q) : 2 ^ 23 * ulp q ≤ q ∧ q < 2 ^ 24 * ulp q := by
  rw [ulp_mul, ulp_mul]
  refine ⟨?_, ?_⟩
  · have := Int.zpow_log_le_self (b := 2) (by norm_num) h
    push_cast at this
    simpa using this
  · have := Int.lt_zpow_succ_log_self (b := 2) (by norm_num) q
    push_cast at this
    have hexp : Int.log 2 q - 23 + ((24 : ℕ) : ℤ) = Int.log 2 q + 1 := by push_cast; ring
    rwa [hexp]

/-- Rounding stays between these powers. -/
theorem round_binade {q : ℚ} (h : 0 < q) :
    2 ^ 23 * ulp q ≤ round q ∧ round q ≤ 2 ^ 24 * ulp q := by
  obtain ⟨hlo, hhi⟩ := binade h
  have hpos := ulp_pos q
  have h1 : ((2 ^ 23 : ℤ)) ≤ roundEven (q / ulp q) := by
    apply le_roundEven
    rw [le_div_iff₀ hpos]
    exact_mod_cast hlo
  have h2 : roundEven (q / ulp q) ≤ ((2 ^ 24 : ℤ)) := by
    apply roundEven_le
    rw [div_le_iff₀ hpos]
    exact_mod_cast hhi.le
  refine ⟨?_, ?_⟩
  · exact mul_le_mul_of_nonneg_right (by exact_mod_cast h1) hpos.le
  · exact mul_le_mul_of_nonneg_right (by exact_mod_cast h2) hpos.le

theorem ulp_lt {p q : ℚ} (h : Int.log 2 p < Int.log 2 q) : 2 ^ 24 * ulp p ≤ 2 ^ 23 * ulp q := by
  rw [ulp_mul, ulp_mul]
  exact zpow_le_zpow_right₀ (by norm_num) (by push_cast; omega)

/-- The significand of the greatest binary32 number that is at most `q`. -/
def significand (q : ℚ) : ℤ := ⌊q / ulp q⌋

/-- What rounding brings down to `m` or below: what lies below the middle between the
greatest binary32 number up to `m` and the next one, or in the middle if that is even. -/
theorem round_le_iff {q m : ℚ} (hq : 0 < q) (hm : 0 < m) :
    round q ≤ m ↔ q < (significand m + 1 / 2) * ulp m ∨
      q = (significand m + 1 / 2) * ulp m ∧ significand m % 2 = 0 := by
  have hpos := ulp_pos m
  obtain ⟨hmlo, hmhi⟩ := binade hm
  obtain ⟨hqlo, hqhi⟩ := binade hq
  obtain ⟨hrlo, hrhi⟩ := round_binade hq
  have hslo : ((2 ^ 23 : ℤ) : ℚ) ≤ significand m := by
    have : (2 ^ 23 : ℤ) ≤ significand m := by
      rw [significand, Int.le_floor, le_div_iff₀ hpos]
      exact_mod_cast hmlo
    exact_mod_cast this
  have hshi : (significand m : ℚ) ≤ ((2 ^ 24 : ℤ) : ℚ) - 1 := by
    have : significand m < (2 ^ 24 : ℤ) := by
      rw [significand, Int.floor_lt, div_lt_iff₀ hpos]
      exact_mod_cast hmhi
    have : significand m ≤ 2 ^ 24 - 1 := by omega
    exact_mod_cast this
  push_cast at hslo hshi
  rcases lt_trichotomy (Int.log 2 q) (Int.log 2 m) with hlog | hlog | hlog
  · have hulp := ulp_lt hlog
    refine iff_of_true (hrhi.trans (hulp.trans hmlo)) (.inl (hqhi.trans_le (hulp.trans ?_)))
    exact mul_le_mul_of_nonneg_right (by linarith) hpos.le
  · have hulp : ulp q = ulp m := by rw [ulp, ulp, hlog]
    have hround : round q ≤ m ↔ roundEven (q / ulp m) ≤ significand m := by
      rw [round, hulp, significand, Int.le_floor, le_div_iff₀ hpos]
    rw [hround, roundEven_le_iff, div_lt_iff₀ hpos, div_eq_iff hpos.ne']
  · have hulp := ulp_lt hlog
    have hmid : (significand m + 1 / 2) * ulp m < 2 ^ 24 * ulp m :=
      mul_lt_mul_of_pos_right (by linarith) hpos
    refine iff_of_false (not_le.mpr (hmhi.trans_le (hulp.trans hrlo))) ?_
    rintro (h | ⟨h, -⟩) <;> linarith

/-- The rounding of a natural number, on naturals. -/
def nearest (n : ℕ) : ℕ :=
  let u := 2 ^ (Nat.log 2 n - 23)
  if 2 * (n % u) < u ∨ 2 * (n % u) = u ∧ n / u % 2 = 0 then n / u * u else (n / u + 1) * u

theorem nearest_of_lt {n : ℕ} (h : Nat.log 2 n < 24) : nearest n = n := by
  have hu : Nat.log 2 n - 23 = 0 := by omega
  simp [nearest, hu, Nat.mod_one]

theorem nearest_of_le {n : ℕ} (h : n ≤ 2 ^ 24) : nearest n = n := by
  rcases h.eq_or_lt with rfl | hlt
  · decide +kernel
  · exact nearest_of_lt (Nat.log_lt_of_lt_pow' (by norm_num) hlt)

/-- The fraction of a quotient of naturals. -/
theorem div_sub_floor (n : ℕ) {u : ℕ} (hu : 0 < u) :
    ⌊(n : ℚ) / u⌋ = (n / u : ℕ) ∧ (n : ℚ) / u - ⌊(n : ℚ) / u⌋ = (n % u : ℕ) / u := by
  have hu' : (0 : ℚ) < u := by exact_mod_cast hu
  have hfloor : ⌊(n : ℚ) / u⌋ = (n / u : ℕ) := by
    rw [Int.floor_eq_iff, le_div_iff₀ hu', div_lt_iff₀ hu']
    have h1 := Nat.div_mul_le_self n u
    have h2 := Nat.lt_div_mul_add hu (a := n)
    refine ⟨by exact_mod_cast h1, ?_⟩
    rw [add_mul, one_mul]
    exact_mod_cast h2
  refine ⟨hfloor, ?_⟩
  have hn : (n : ℚ) = u * (n / u : ℕ) + (n % u : ℕ) := by exact_mod_cast (Nat.div_add_mod n u).symm
  rw [hfloor, sub_eq_iff_eq_add, div_eq_iff hu'.ne', add_mul, div_mul_cancel₀ _ hu'.ne', add_comm]
  rw [Int.cast_natCast, mul_comm]
  exact hn

theorem roundEven_natCast_div (n : ℕ) {u : ℕ} (hu : 0 < u) :
    roundEven ((n : ℚ) / u) =
      if 2 * (n % u) < u ∨ 2 * (n % u) = u ∧ n / u % 2 = 0 then ((n / u : ℕ) : ℤ)
      else (n / u : ℕ) + 1 := by
  have hu' : (0 : ℚ) < u := by exact_mod_cast hu
  obtain ⟨hfloor, hfrac⟩ := div_sub_floor n hu
  have hlt : (n : ℚ) / u - ⌊(n : ℚ) / u⌋ < 1 / 2 ↔ 2 * (n % u) < u := by
    rw [hfrac, div_lt_iff₀ hu', ← Nat.cast_lt (α := ℚ)]
    push_cast
    constructor <;> intro <;> linarith
  have heq : (n : ℚ) / u - ⌊(n : ℚ) / u⌋ = 1 / 2 ↔ 2 * (n % u) = u := by
    rw [hfrac, div_eq_iff hu'.ne', ← Nat.cast_inj (R := ℚ)]
    push_cast
    constructor <;> intro <;> linarith
  have hpar : ((n / u : ℕ) : ℤ) % 2 = 0 ↔ n / u % 2 = 0 := by omega
  unfold roundEven
  rw [hfloor] at hlt heq ⊢
  exact if_congr (or_congr hlt (and_congr heq hpar)) rfl rfl

theorem round_natCast (n : ℕ) : round n = nearest n := by
  have hlog : Int.log 2 (n : ℚ) = Nat.log 2 n := Int.log_natCast 2 n
  rcases Nat.lt_or_ge (Nat.log 2 n) 24 with h | h
  · rw [nearest_of_lt h]
    have hulp : ulp n * (2 ^ (23 - Nat.log 2 n) : ℕ) = 1 := by
      rw [ulp, hlog]
      push_cast
      rw [← zpow_natCast, ← zpow_add₀ (by norm_num), Nat.cast_sub (by omega)]
      simp
    have hquot : (n : ℚ) / ulp n = ((n * 2 ^ (23 - Nat.log 2 n) : ℕ) : ℤ) := by
      rw [div_eq_iff (ulp_pos _).ne']
      push_cast at hulp ⊢
      rw [mul_assoc, mul_comm _ (ulp n), hulp, mul_one]
    rw [round, hquot, roundEven_intCast, ← hquot, div_mul_cancel₀ _ (ulp_pos _).ne']
  · have hulp : ulp n = (2 ^ (Nat.log 2 n - 23) : ℕ) := by
      rw [ulp, hlog]
      push_cast
      rw [← zpow_natCast, Nat.cast_sub (by omega)]
      rfl
    rw [round, hulp, roundEven_natCast_div n (by positivity), nearest]
    split_ifs <;> push_cast <;> rfl

theorem nearest_pos {n : ℕ} (h : 0 < n) : 0 < nearest n := by
  have hn : (0 : ℚ) < n := by exact_mod_cast h
  have hround : (0 : ℚ) < round n :=
    (mul_pos (by norm_num) (ulp_pos _)).trans_le (round_binade hn).1
  rw [round_natCast] at hround
  exact_mod_cast hround

theorem pow_log_le_nearest {n : ℕ} (h : 0 < n) : 2 ^ Nat.log 2 n ≤ nearest n := by
  have hn : (0 : ℚ) < n := by exact_mod_cast h
  have hround := (round_binade hn).1
  rw [ulp_mul, Int.log_natCast, round_natCast] at hround
  have hexp : (Nat.log 2 n : ℤ) - 23 + ((23 : ℕ) : ℤ) = (Nat.log 2 n : ℤ) := by omega
  rw [hexp, zpow_natCast] at hround
  exact_mod_cast hround

theorem nearest_le_two_pow {n k : ℕ} (h : n < 2 ^ k) : nearest n ≤ 2 ^ k := by
  rcases Nat.eq_zero_or_pos n with rfl | hpos
  · exact Nat.zero_le _
  have hn : (0 : ℚ) < n := by exact_mod_cast hpos
  have hround := (round_binade hn).2
  rw [ulp_mul, Int.log_natCast, round_natCast] at hround
  have hexp : (Nat.log 2 n : ℤ) - 23 + ((24 : ℕ) : ℤ) = (Nat.log 2 n + 1 : ℕ) := by omega
  rw [hexp, zpow_natCast] at hround
  have hle : nearest n ≤ 2 ^ (Nat.log 2 n + 1) := by exact_mod_cast hround
  exact hle.trans (Nat.pow_le_pow_right (by norm_num) (Nat.log_lt_of_lt_pow hpos.ne' h))

/-- In the binade below `2 ^ 24 * u`, whose unit is `u = 2 * d`. -/
theorem top_binade {q r d : ℕ} (hr : r < 2 * d) (hlt : 2 * d * q + r < 2 ^ 24 * (2 * d)) :
    let m := if 2 * r < 2 * d ∨ 2 * r = 2 * d ∧ q % 2 = 0 then q * (2 * d) else (q + 1) * (2 * d)
    (m < 2 ^ 24 * (2 * d) ↔ 2 * d * q + r < 2 ^ 24 * (2 * d) - d) ∧
      (m < 2 ^ 24 * (2 * d) → m ≤ 2 ^ 24 * (2 * d) - 2 * d) := by
  have hd : 0 < 2 * d := by omega
  have hq : q < 2 ^ 24 := by
    by_contra hge
    have hmul : 2 * d * 2 ^ 24 ≤ 2 * d * q := Nat.mul_le_mul_left _ (not_lt.mp hge)
    omega
  obtain hq' | rfl : q + 2 ≤ 2 ^ 24 ∨ q = 16777215 := by omega
  · have hle : 2 * d * (q + 2) ≤ 2 * d * 2 ^ 24 := Nat.mul_le_mul_left _ hq'
    rw [Nat.mul_add] at hle
    dsimp only
    rw [Nat.add_mul, Nat.mul_comm q]
    split_ifs <;> omega
  · -- the greatest significand is odd
    have hodd : (2 * r < 2 * d ∨ 2 * r = 2 * d ∧ 16777215 % 2 = 0) ↔ r < d := by omega
    simp only [hodd]
    by_cases hc : r < d
    · rw [if_pos hc]
      omega
    · rw [if_neg hc]
      omega

/-- Below a power of two: what is rounded up to it, and where the others end. -/
theorem nearest_lt_two_pow_iff {n k : ℕ} (hk : 25 ≤ k) (h : n < 2 ^ k) :
    (nearest n < 2 ^ k ↔ n < 2 ^ k - 2 ^ (k - 25)) ∧
      (nearest n < 2 ^ k → nearest n ≤ 2 ^ k - 2 ^ (k - 24)) := by
  obtain ⟨j, rfl⟩ := Nat.exists_eq_add_of_le' hk
  have htop : 2 ^ (j + 25) = 2 ^ 24 * (2 * 2 ^ j) := by ring
  have hhalf : 2 ^ (j + 24) = 2 ^ 24 * 2 ^ j := by ring
  have hunit : 2 ^ (j + 1) = 2 * 2 ^ j := by ring
  have hd : 0 < 2 ^ j := by positivity
  rw [Nat.add_sub_cancel, show j + 25 - 24 = j + 1 by omega, hunit]
  rcases Nat.lt_or_ge n (2 ^ (j + 24)) with hlow | hhigh
  · have hle := nearest_le_two_pow hlow
    omega
  · have hlog : Nat.log 2 n = j + 24 := (Nat.log_eq_iff (.inl (by omega))).mpr ⟨hhigh, h⟩
    have hn := Nat.div_add_mod n (2 * 2 ^ j)
    have hr := Nat.mod_lt n (show 2 * 2 ^ j > 0 by omega)
    rw [htop] at h ⊢
    unfold nearest
    rw [hlog, show j + 24 - 23 = j + 1 by omega, hunit]
    have := top_binade (q := n / (2 * 2 ^ j)) hr (hn.symm ▸ h)
    rwa [hn] at this
/-- The 24 leading bits of a natural number. -/
def lead (n : ℕ) : ℕ := n * 2 ^ 23 / 2 ^ Nat.log 2 n

theorem lead_mul {n : ℕ} (h : n < 2 ^ 24) : lead n * 2 ^ Nat.log 2 n = n * 2 ^ 23 := by
  have hlog : Nat.log 2 n < 24 := Nat.log_lt_of_lt_pow' (by norm_num) h
  exact Nat.div_mul_cancel (Dvd.dvd.mul_left (pow_dvd_pow 2 (by omega)) n)

theorem significand_natCast (n : ℕ) : significand n = lead n := by
  have hquot : (n : ℚ) / ulp n = ((n * 2 ^ 23 : ℕ) : ℚ) / (2 ^ Nat.log 2 n : ℕ) := by
    rw [ulp, Int.log_natCast, zpow_sub₀ (by norm_num), div_div_eq_mul_div]
    push_cast
    norm_cast
  rw [significand, hquot, (div_sub_floor _ (by positivity)).1, lead]

/-- The same for a quotient of naturals and a natural bound, without fractions. -/
theorem round_div_le_iff {a b m : ℕ} (ha : 0 < a) (hb : 0 < b) (hm : 0 < m) :
    round ((a : ℚ) / b) ≤ m ↔ 2 ^ 24 * a < (2 * lead m + 1) * 2 ^ Nat.log 2 m * b ∨
      2 ^ 24 * a = (2 * lead m + 1) * 2 ^ Nat.log 2 m * b ∧ lead m % 2 = 0 := by
  have ha' : (0 : ℚ) < a := by exact_mod_cast ha
  have hb' : (0 : ℚ) < b := by exact_mod_cast hb
  have hmid : ((significand m : ℚ) + 1 / 2) * ulp m =
      ((2 * lead m + 1) * 2 ^ Nat.log 2 m : ℕ) / 2 ^ 24 := by
    rw [significand_natCast, ulp, Int.log_natCast, zpow_sub₀ (by norm_num)]
    push_cast
    rw [zpow_natCast]
    ring
  rw [round_le_iff (div_pos ha' hb') (by exact_mod_cast hm), hmid, significand_natCast,
    div_lt_div_iff₀ hb' (by norm_num), div_eq_div_iff hb'.ne' (by norm_num), mul_comm (a : ℚ)]
  refine or_congr (by exact_mod_cast Iff.rfl) (and_congr (by exact_mod_cast Iff.rfl) ?_)
  omega

end Lib.Binary32
