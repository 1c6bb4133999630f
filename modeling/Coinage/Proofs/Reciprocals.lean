import Coinage.Proofs.ExactFormat

/-!
# Quotients by rounded reciprocals

Below the Hao an amount is not multiplied by a power of ten but divided by its reciprocal, which
has been rounded before. The quotient is off by the relative error of the reciprocal, and rounding
it gives the exact product back as long as the error is at most half of the spacing there. Beyond
that the result is the next number on either side, since the error stays below one spacing and a
half.

Results.

* `rounded_eq_iff_of_even`, `abs_rounded_sub_eq_of_even`: rounding close to an even number.
* `abs_reciprocalError_le`: the relative error of a reciprocal.
* `rounded_div_reciprocal_eq_iff`: when the product is exact.
-/
namespace Coinage.Binary64

open Magnitude

/-! ## Close to an even number -/

section Even

variable {n : ℕ} {x : ℚ}

/-- The spacing of the binade that a whole number lies in. -/
def spacingAt (n : ℕ) : ℚ := 2 ^ ((n.log2 : ℤ) - 52)

theorem spacingAt_pos (n : ℕ) : 0 < spacingAt n := by unfold spacingAt; positivity

theorem spacingAt_eq_div (n : ℕ) : spacingAt n = 2 ^ n.log2 / 2 ^ 52 := by
  rw [spacingAt, zpow_sub₀ two_ne_zero, zpow_natCast]
  norm_num

theorem natCast_lt_spacingAt (n : ℕ) : (n : ℚ) < 2 ^ 53 * spacingAt n := by
  have h : n < 2 * 2 ^ n.log2 := by
    rw [← Nat.pow_succ']
    exact Nat.lt_log2_self
  calc (n : ℚ) < 2 * 2 ^ n.log2 := by exact_mod_cast h
    _ = 2 ^ 53 * spacingAt n := by rw [spacingAt_eq_div]; ring

theorem log2_le_of_pow_lt (hlow : 2 ^ n.log2 < n) (hn : n ≤ 2 ^ 53) : n.log2 ≤ 52 := by
  have := (Nat.pow_lt_pow_iff_right (a := 2) (by omega)).mp (hlow.trans_le hn)
  omega

theorem spacingAt_le_one (h : n.log2 ≤ 52) : spacingAt n ≤ 1 :=
  zpow_le_one_of_nonpos₀ one_le_two (by omega)

/-- An even number that is not a power of two is at least two away from the ends of its binade. -/
theorem binade_of_even (h2 : n % 2 = 0) (hlow : 2 ^ n.log2 < n) :
    2 ^ n.log2 + 2 ≤ n ∧ n + 2 ≤ 2 ^ (n.log2 + 1) := by
  have hlt : n < 2 ^ (n.log2 + 1) := Nat.lt_log2_self
  have he := Nat.pow_succ 2 n.log2
  have hp : 2 ^ n.log2 % 2 = 0 := by
    by_cases h0 : n.log2 = 0
    · rw [h0] at hlow hlt
      omega
    · exact Nat.two_pow_mod_two_eq_zero.mpr (by omega)
  omega

/-- Close to an even number the rounding is to a whole number of its spacing. -/
theorem rounded_of_near_even (h2 : n % 2 = 0) (hlow : 2 ^ n.log2 < n) (hn : n ≤ 2 ^ 53)
    (hx : |x - n| < 3 / 2 * spacingAt n) :
    0 ≤ x ∧ rounded x = wholeNear (x / spacingAt n) * spacingAt n := by
  have hlog := log2_le_of_pow_lt hlow hn
  have hs := spacingAt_le_one hlog
  obtain ⟨hlo, hhi⟩ := binade_of_even h2 hlow
  have clo : (2 : ℚ) ^ n.log2 + 2 ≤ n := by exact_mod_cast hlo
  have chi : (n : ℚ) + 2 ≤ 2 ^ (n.log2 + 1) := by exact_mod_cast hhi
  obtain ⟨h1, h3⟩ := abs_lt.mp hx
  have hp : (0 : ℚ) < 2 ^ n.log2 := by positivity
  have e52 : (2 : ℚ) ^ (52 + ((n.log2 : ℤ) - 52)) = 2 ^ n.log2 := by
    rw [add_sub_cancel, zpow_natCast]
  have e53 : (2 : ℚ) ^ (53 + ((n.log2 : ℤ) - 52)) = 2 ^ (n.log2 + 1) := by
    rw [← zpow_natCast]
    congr 1
    push_cast
    ring
  refine ⟨by linarith, rounded_of_binade (by omega) (by linarith) (.inr ?_) ?_⟩
  · rw [e52]
    linarith
  · rw [e53]
    linarith

/-- An even number below `2^53` is an even number of its spacing. -/
theorem exists_even_mul_spacingAt (h2 : n % 2 = 0) (hlog : n.log2 ≤ 52) :
    ∃ k : ℕ, k % 2 = 0 ∧ (n : ℚ) = k * spacingAt n := by
  refine ⟨n * 2 ^ (52 - n.log2), by simp [Nat.mul_mod, h2], ?_⟩
  have hp : (2 : ℚ) ^ (52 - n.log2) * 2 ^ n.log2 = 2 ^ 52 := by
    rw [← pow_add]
    congr 1
    omega
  rw [spacingAt_eq_div]
  push_cast
  rw [mul_assoc, mul_div_assoc', hp]
  norm_num

/-- An even number that is not a power of two is the rounding of all within half of its spacing. -/
theorem rounded_eq_iff_of_even (h2 : n % 2 = 0) (hlow : 2 ^ n.log2 < n) (hn : n ≤ 2 ^ 53)
    (hx : |x - n| < 3 / 2 * spacingAt n) : rounded x = n ↔ |x - n| ≤ spacingAt n / 2 := by
  obtain ⟨h0, hr⟩ := rounded_of_near_even h2 hlow hn hx
  obtain ⟨k, hk, e⟩ := exists_even_mul_spacingAt h2 (log2_le_of_pow_lt hlow hn)
  have hp := spacingAt_pos n
  generalize spacingAt n = s at *
  rw [hr, e, abs_sub_comm, abs_mul_sub hp, mul_left_inj' hp.ne', Nat.cast_inj,
    wholeNear_eq_iff_of_even (div_nonneg h0 hp.le) hk, abs_sub_comm, div_eq_mul_one_div s,
    mul_comm s, mul_le_mul_iff_of_pos_right hp]

/-- Where it is not, it is the next number on either side. -/
theorem abs_rounded_sub_eq_of_even (h2 : n % 2 = 0) (hlow : 2 ^ n.log2 < n) (hn : n ≤ 2 ^ 53)
    (hx : |x - n| < 3 / 2 * spacingAt n) (hne : rounded x ≠ n) :
    |rounded x - n| = spacingAt n := by
  obtain ⟨h0, hr⟩ := rounded_of_near_even h2 hlow hn hx
  obtain ⟨k, -, e⟩ := exists_even_mul_spacingAt h2 (log2_le_of_pow_lt hlow hn)
  have hp := spacingAt_pos n
  generalize spacingAt n = s at *
  have hw := abs_wholeNear_sub_le (div_nonneg h0 hp.le)
  rw [hr, e] at hne ⊢
  rw [e, abs_sub_comm, abs_mul_sub hp, abs_sub_comm, mul_lt_mul_iff_of_pos_right hp] at hx
  generalize wholeNear (x / s) = w at *
  have hwk : w ≠ k := fun h => hne (by rw [h])
  have hlt : |(w : ℚ) - k| < 2 := by linarith [abs_sub_le (w : ℚ) (x / s) k]
  have hone : |(w : ℤ) - k| = 1 := by
    have hlt' : |(w : ℤ) - k| < 2 := by exact_mod_cast hlt
    have hpos : 0 < |(w : ℤ) - k| := abs_pos.mpr (by omega)
    omega
  have hone' : |(w : ℚ) - k| = 1 := by exact_mod_cast hone
  rw [← sub_mul, abs_mul, abs_of_pos hp, hone', one_mul]

end Even

/-! ## Reciprocals of powers of ten -/

variable {k n : ℕ}

/-- The reciprocal of a power of ten, rounded. -/
def reciprocal (k : ℕ) : ℚ := rounded (1 / 10 ^ k)

@[simp] theorem reciprocal_zero : reciprocal 0 = 1 := by simp [reciprocal]

/-- The relative error of a quotient by a rounded reciprocal. -/
def reciprocalError (k : ℕ) : ℚ := 1 / (10 ^ k * reciprocal k) - 1

theorem abs_mul_reciprocal_sub_le (hk : k ≤ 22) : |10 ^ k * reciprocal k - 1| ≤ 1 / 2 ^ 53 := by
  have h := abs_rounded_div_sub_le (n := 1) one_pos hk
  rw [Nat.cast_one] at h
  have hp : (0 : ℚ) < 10 ^ k := by positivity
  calc |10 ^ k * reciprocal k - 1| = |reciprocal k - 1 / 10 ^ k| * 10 ^ k := by
        rw [← abs_mul_sub hp, mul_comm]
    _ ≤ 1 / 10 ^ k / 2 ^ 53 * 10 ^ k := mul_le_mul_of_nonneg_right h hp.le
    _ = 1 / 2 ^ 53 := by field_simp

theorem reciprocal_pos (hk : k ≤ 22) : 0 < reciprocal k := by
  have h := (abs_le.mp (abs_mul_reciprocal_sub_le hk)).1
  have hpos : 0 < 10 ^ k * reciprocal k := by
    norm_num at h
    linarith
  exact pos_of_mul_pos_right hpos (by positivity)

/-- The error is at most one and a half times that of one rounding. -/
theorem abs_reciprocalError_le (hk : k ≤ 22) : |reciprocalError k| ≤ 3 / 2 ^ 54 := by
  have h := abs_mul_reciprocal_sub_le hk
  have hp : 0 < 10 ^ k * reciprocal k := mul_pos (by positivity) (reciprocal_pos hk)
  unfold reciprocalError
  generalize 10 ^ k * reciprocal k = p at *
  have hlo : (1 : ℚ) - 1 / 2 ^ 53 ≤ p := by linarith [(abs_le.mp h).1]
  calc |1 / p - 1| = |p - 1| / p := by
        rw [← abs_of_pos hp, ← abs_div, abs_of_pos hp, abs_sub_comm, sub_div, div_self hp.ne']
    _ ≤ 1 / 2 ^ 53 / (1 - 1 / 2 ^ 53) := div_le_div₀ (by norm_num) h (by norm_num) hlo
    _ ≤ 3 / 2 ^ 54 := by norm_num

/-- A quotient by the rounded reciprocal, seen from the exact product. -/
theorem div_reciprocal_sub (n : ℕ) (hk : k ≤ 22) :
    n / reciprocal k - (n * 10 ^ k : ℕ) = reciprocalError k * (n * 10 ^ k : ℕ) := by
  have hp := (reciprocal_pos hk).ne'
  unfold reciprocalError
  push_cast
  field_simp

theorem div_reciprocal_le (n : ℕ) (hk : k ≤ 22) :
    n / reciprocal k ≤ 2 * (n * 10 ^ k : ℕ) := by
  have hd := div_reciprocal_sub n hk
  have he := (abs_le.mp (abs_reciprocalError_le hk)).2
  have h := mul_le_mul_of_nonneg_right he (Nat.cast_nonneg (n * 10 ^ k))
  have h0 : (0 : ℚ) ≤ (n * 10 ^ k : ℕ) := Nat.cast_nonneg _
  linarith

/-! ## Exact products -/

/-- The error of the reciprocal, carried to the product `n · 10^k`, is at most half of the spacing
there. -/
def ConvertsExactly (k n : ℕ) : Prop :=
  |reciprocalError k| * (n * 10 ^ k : ℕ) ≤ spacingAt (n * 10 ^ k) / 2

instance (k n : ℕ) : Decidable (ConvertsExactly k n) := inferInstanceAs (Decidable (_ ≤ _))

/-- A multiple of ten is even and no power of two. -/
theorem two_pow_log2_lt (hk : k ≠ 0) (hn : n ≠ 0) : 2 ^ (n * 10 ^ k).log2 < n * 10 ^ k := by
  refine lt_of_le_of_ne (Nat.log2_self_le (by positivity)) ?_
  intro h
  have h5 : 5 ∣ 2 ^ (n * 10 ^ k).log2 := by
    rw [h]
    exact Dvd.dvd.mul_left (dvd_pow (by norm_num) hk) n
  exact absurd (Nat.Coprime.eq_one_of_dvd (Nat.Coprime.pow_right _ (by decide)) h5) (by decide)

theorem abs_div_reciprocal_sub_lt (hk : k ≤ 22) (hn : n ≠ 0) :
    |n / reciprocal k - (n * 10 ^ k : ℕ)| < 3 / 2 * spacingAt (n * 10 ^ k) := by
  have h0 : (0 : ℚ) < (n * 10 ^ k : ℕ) := by positivity
  have hlt := natCast_lt_spacingAt (n * 10 ^ k)
  have he := abs_reciprocalError_le hk
  rw [div_reciprocal_sub n hk, abs_mul, abs_of_pos h0]
  calc |reciprocalError k| * (n * 10 ^ k : ℕ) ≤ 3 / 2 ^ 54 * (n * 10 ^ k : ℕ) :=
        mul_le_mul_of_nonneg_right he h0.le
    _ < 3 / 2 ^ 54 * (2 ^ 53 * spacingAt (n * 10 ^ k)) := mul_lt_mul_of_pos_left hlt (by norm_num)
    _ = 3 / 2 * spacingAt (n * 10 ^ k) := by ring

theorem even_mul_ten_pow (hk : k ≠ 0) (n : ℕ) : n * 10 ^ k % 2 = 0 := by
  have h2 : 2 ∣ n * 10 ^ k := Dvd.dvd.mul_left (dvd_pow (by norm_num) hk) n
  omega

theorem convertsExactly_zero (n : ℕ) : ConvertsExactly 0 n := by
  have h := (half_pos (spacingAt_pos (n * 10 ^ 0))).le
  simpa [ConvertsExactly, reciprocalError] using h

theorem ne_zero_of_not_convertsExactly (hc : ¬ConvertsExactly k n) : k ≠ 0 := by
  intro h0
  rw [h0] at hc
  exact hc (convertsExactly_zero n)

theorem rounded_div_reciprocal_eq_iff (hk : k ≤ 22) (hn : n ≠ 0) (h : n * 10 ^ k ≤ 2 ^ 53) :
    rounded (n / reciprocal k) = (n * 10 ^ k : ℕ) ↔ ConvertsExactly k n := by
  by_cases h0 : k = 0
  · rw [h0, pow_zero, mul_one] at h
    simp [h0, convertsExactly_zero, rounded_natCast h]
  · rw [rounded_eq_iff_of_even (even_mul_ten_pow h0 n) (two_pow_log2_lt h0 hn) h
      (abs_div_reciprocal_sub_lt hk hn), div_reciprocal_sub n hk, abs_mul, Nat.abs_cast]
    rfl

/-- An inexact quotient is the number next to the product. -/
theorem abs_rounded_div_reciprocal_sub (hk : k ≤ 22) (hn : n ≠ 0) (h : n * 10 ^ k ≤ 2 ^ 53)
    (hc : ¬ConvertsExactly k n) :
    |rounded (n / reciprocal k) - (n * 10 ^ k : ℕ)| = spacingAt (n * 10 ^ k) := by
  have h0 := ne_zero_of_not_convertsExactly hc
  exact abs_rounded_sub_eq_of_even (even_mul_ten_pow h0 n) (two_pow_log2_lt h0 hn) h
    (abs_div_reciprocal_sub_lt hk hn) (mt (rounded_div_reciprocal_eq_iff hk hn h).mp hc)

/-- The powers whose reciprocals are off by at most a quarter of the spacing at one; of those with
products up to `2^53` only four are not. -/
theorem abs_reciprocalError_le_quarter :
    ∀ k ≤ 15, k ∉ [5, 9, 11, 15] → |reciprocalError k| ≤ 1 / 2 ^ 54 := by
  decide +kernel

theorem convertsExactly_of_not_mem (hk : k ≤ 15) (h : k ∉ [5, 9, 11, 15]) (n : ℕ) :
    ConvertsExactly k n := by
  have hlt := (natCast_lt_spacingAt (n * 10 ^ k)).le
  have he := abs_reciprocalError_le_quarter k hk h
  calc |reciprocalError k| * (n * 10 ^ k : ℕ) ≤ 1 / 2 ^ 54 * (2 ^ 53 * spacingAt (n * 10 ^ k)) :=
        mul_le_mul he hlt (Nat.cast_nonneg _) (by norm_num)
    _ = spacingAt (n * 10 ^ k) / 2 := by ring

end Coinage.Binary64
