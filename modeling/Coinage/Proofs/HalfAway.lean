import Coinage.Proofs.WholeHao
import Mathlib.Data.Sign.Basic

/-!
# Rounding to whole Hao is rounding halves away from zero, nearly

Adding a half in binary64 arithmetic is exact, or crosses into the next binade, where the power of
two in between keeps the whole parts of both sums the same. There are two kinds of exceptions: the
number just below one half, whose sum is a tie that goes up to one, and the odd whole numbers from
`2^52` to `2^53`, whose sums are ties that go to the even number above.

Results.

* `wholeHao_eq_floor`: between one half and `2^52` the whole part is that of the exact sum.
* `wholeHao_of_roundsTooFar`, `wholeHao_of_not_roundsTooFar`: the exceptions and the other values.
* `ofNumber_hao_halfAway`: the amount of a number of Hao.
-/
namespace Coinage.Amount

open Binary64 Magnitude

/-- The nearest whole number, halves away from zero. -/
def halfAway (q : ℚ) : ℤ := SignType.sign q * ⌊|q| + 1 / 2⌋

/-- Just below one half, or odd and between `2^52` and `2^53`. -/
def RoundsTooFar (q : ℚ) : Prop :=
  |q| = 1 / 2 - 1 / 2 ^ 54 ∨ ∃ n : ℕ, |q| = n ∧ n % 2 = 1 ∧ 2 ^ 52 < n ∧ n < 2 ^ 53

variable {q : ℚ}

/-! ## Below one half -/

theorem rounded_just_below_one : rounded (1 - 1 / 2 ^ 54) = 1 := by
  have e : ((1 - 1 / 2 ^ 54) / 2 ^ (-53 : ℤ) : ℚ) = (2 ^ 53 - 1 : ℕ) + 1 / 2 := by norm_num
  rw [rounded_of_binade (t := -53) (by omega) (by norm_num) (.inr (by norm_num)) (by norm_num), e,
    wholeNear_tie]
  norm_num

theorem rounded_second_below_one : rounded (1 - 1 / 2 ^ 53) = 1 - 1 / 2 ^ 53 :=
  rounded_eq_self (2 ^ 53 - 1) (-53) (by norm_num) (by decide) (by decide)

/-- A binary64 value below one half that is not the greatest one is at least twice as far away. -/
theorem le_second_below_half (hq : rounded q = q) (h0 : 0 ≤ q) (h : q < 1 / 2)
    (hne : q ≠ 1 / 2 - 1 / 2 ^ 54) : q ≤ 1 / 2 - 1 / 2 ^ 53 := by
  rw [rounded_of_nonneg h0] at hq
  rcases exists_multiple_or_valueAt_le (rankNear q) (-54) with ⟨k, hk⟩ | ⟨-, hle⟩
  · have e : q = k / 2 ^ 54 := by
      rw [← hq, hk, zpow_neg, div_eq_mul_inv]
      norm_num
    have hlt : (k : ℚ) < 2 ^ 53 := by
      rw [e, div_lt_iff₀ (by norm_num)] at h
      linarith
    have hk1 : k < 2 ^ 53 := by exact_mod_cast hlt
    have hk2 : k ≠ 2 ^ 53 - 1 := by
      intro h
      apply hne
      rw [e, h]
      norm_num
    have hk3 : (k : ℚ) ≤ (2 ^ 53 - 2 : ℤ) := by exact_mod_cast (show k ≤ 2 ^ 53 - 2 by omega)
    rw [e, div_le_iff₀ (by norm_num)]
    norm_num at hk3 ⊢
    exact hk3
  · rw [hq] at hle
    norm_num at hle ⊢
    linarith

theorem wholeHao_just_below_half : wholeHao (1 / 2 - 1 / 2 ^ 54) = 1 := by
  have e : (1 / 2 - 1 / 2 ^ 54 + 1 / 2 : ℚ) = 1 - 1 / 2 ^ 54 := by ring
  rw [wholeHao_of_nonneg (by norm_num), e, rounded_just_below_one, Int.floor_one]

theorem wholeHao_below_half (hq : rounded q = q) (h0 : 0 ≤ q) (h : q < 1 / 2)
    (hne : q ≠ 1 / 2 - 1 / 2 ^ 54) : wholeHao q = 0 := by
  have hle := le_second_below_half hq h0 h hne
  have hm := rounded_mono (show q + 1 / 2 ≤ 1 - 1 / 2 ^ 53 by linarith)
  rw [rounded_second_below_one] at hm
  refine wholeHao_eq h0 ?_ ?_
  · simpa using rounded_nonneg (show 0 ≤ q + 1 / 2 by linarith)
  · norm_num at hm ⊢
    linarith

/-! ## Up to `2^52` -/

/-- Between one half and `2^52` a half is a whole number of the spacing. -/
theorem exists_half_spacing (hq : rounded q = q) (h1 : 1 / 2 ≤ q) (h2 : q < 2 ^ 52) :
    ∃ k i : ℕ, i ≤ 52 ∧ k < 2 ^ 53 ∧ q = k / 2 ^ (i + 1) := by
  obtain ⟨k, t, ht, hlow, hk, hv⟩ := exists_normal (rankNear q)
  rw [← rounded_of_nonneg (by linarith), hq] at hv
  have hp : (0 : ℚ) < 2 ^ t := by positivity
  have hlo : -54 < t := by
    by_contra hle
    have hs : (2 : ℚ) ^ t ≤ 2 ^ (-54 : ℤ) := zpow_le_zpow_right₀ one_le_two (by omega)
    have hk' : (k : ℚ) < 2 ^ 53 := by exact_mod_cast hk
    have : (k : ℚ) * 2 ^ t < 2 ^ 53 * 2 ^ (-54 : ℤ) :=
      mul_lt_mul hk' hs hp (by norm_num)
    rw [← hv] at this
    norm_num at this h1
    linarith
  have hhi : t < 0 := by
    by_contra hge
    have hs : (1 : ℚ) ≤ 2 ^ t := one_le_zpow₀ one_le_two (by omega)
    have hk' : (2 : ℚ) ^ 52 ≤ k := by exact_mod_cast hlow.resolve_left (by omega)
    have : (2 : ℚ) ^ 52 * 1 ≤ k * 2 ^ t := mul_le_mul hk' hs (by norm_num) (Nat.cast_nonneg k)
    rw [← hv] at this
    linarith
  refine ⟨k, (-1 - t).toNat, by omega, hk, ?_⟩
  rw [hv, ← zpow_natCast, div_eq_mul_inv, ← zpow_neg]
  congr 2
  omega

/-- Where the sum passes a power of two, both sums have it as their whole part. -/
theorem floor_rounded_of_crossing {i : ℕ} (hi : i ≤ 51) (hlo : 2 ^ i ≤ q)
    (hhi : q < 2 ^ i + 1 / 2) : ⌊rounded q⌋ = 2 ^ i := by
  have h51 : (2 : ℤ) ^ i ≤ 2 ^ 51 := pow_le_pow_right₀ (by omega) hi
  have e : ((2 ^ i : ℚ) + 1 / 2) = ((2 * 2 ^ i + 1 : ℤ) : ℚ) / 2 := by
    push_cast
    ring
  have h1 := rounded_mono hlo
  have h2 := rounded_mono hhi.le
  rw [rounded_two_pow] at h1
  rw [e, rounded_div_two (by rw [abs_of_pos (by positivity)]; omega), ← e] at h2
  rw [Int.floor_eq_iff]
  push_cast
  exact ⟨h1, by linarith⟩

/-- The sum with a half is exact, or passes the end of its binade. -/
theorem wholeHao_eq_floor (hq : rounded q = q) (h1 : 1 / 2 ≤ q) (h2 : q < 2 ^ 52) :
    wholeHao q = ⌊q + 1 / 2⌋ := by
  obtain ⟨k, i, hi, hk, e⟩ := exists_half_spacing hq h1 h2
  have hsum : q + 1 / 2 = (k + 2 ^ i : ℕ) / 2 ^ (i + 1) := by
    rw [e, pow_succ]
    push_cast
    field_simp
  rw [wholeHao_of_nonneg (by linarith)]
  by_cases hj : k + 2 ^ i ≤ 2 ^ 53
  · have hexact : rounded (q + 1 / 2) = q + 1 / 2 := by
      refine rounded_eq_self (k + 2 ^ i : ℕ) (-(i + 1 : ℕ)) ?_ ?_ (by omega)
      · rw [hsum, zpow_neg, zpow_natCast, div_eq_mul_inv, Int.cast_natCast]
      · rw [Nat.abs_cast]
        exact_mod_cast hj
    rw [hexact]
  · have hi1 : i ≠ 0 := by
      intro h0
      rw [h0] at hj
      omega
    have htop : (2 : ℚ) ^ (52 - i) * 2 ^ (i + 1) = 2 ^ 53 := by
      rw [← pow_add]
      congr 1
      omega
    have hlt : q < 2 ^ (52 - i) := by
      rw [e, div_lt_iff₀ (by positivity), htop]
      exact_mod_cast hk
    have hle : (2 : ℚ) ^ (52 - i) ≤ q + 1 / 2 := by
      rw [hsum, le_div_iff₀ (by positivity), htop]
      exact_mod_cast (not_le.mp hj).le
    have hfloor : ⌊q + 1 / 2⌋ = 2 ^ (52 - i) := by
      rw [Int.floor_eq_iff]
      push_cast
      exact ⟨hle, by linarith⟩
    rw [hfloor, floor_rounded_of_crossing (by omega) hle (by linarith)]

/-! ## From `2^52` on -/

/-- From `2^52` on the binary64 values are whole numbers. -/
theorem exists_eq_natCast (hq : rounded q = q) (h : 2 ^ 52 ≤ q) : ∃ n : ℕ, q = n := by
  have h0 : 0 ≤ q := by linarith
  rw [rounded_of_nonneg h0] at hq
  rcases exists_multiple_or_valueAt_le (rankNear q) 0 with ⟨k, hk⟩ | ⟨-, hle⟩
  · rw [hq, zpow_zero, mul_one] at hk
    have hk0 : 0 ≤ k := by exact_mod_cast hk ▸ h0
    exact ⟨k.toNat, by rw [hk]; exact_mod_cast (Int.toNat_of_nonneg hk0).symm⟩
  · rw [hq] at hle
    exact ⟨2 ^ 52, by norm_num at hle h ⊢; linarith⟩

theorem floor_natCast_add_half (n : ℕ) : ⌊(n : ℚ) + 1 / 2⌋ = n := by
  rw [Int.floor_eq_iff]
  constructor <;> push_cast <;> linarith

/-! ## All values -/

theorem halfAway_of_nonneg (h : 0 ≤ q) : halfAway q = ⌊q + 1 / 2⌋ := by
  rcases h.eq_or_lt with rfl | h
  · norm_num [halfAway]
  · simp [halfAway, sign_pos h, abs_of_pos h]

@[simp] theorem halfAway_neg (q : ℚ) : halfAway (-q) = -halfAway q := by
  simp [halfAway, Left.sign_neg]

theorem roundsTooFar_neg : RoundsTooFar (-q) ↔ RoundsTooFar q := by
  simp [RoundsTooFar]

theorem wholeHao_of_roundsTooFar_of_nonneg (h0 : 0 ≤ q) (h : RoundsTooFar q) :
    wholeHao q = halfAway q + SignType.sign q := by
  rw [RoundsTooFar, abs_of_nonneg h0] at h
  rcases h with rfl | ⟨n, rfl, hodd, hlo, hhi⟩
  · rw [wholeHao_just_below_half, halfAway_of_nonneg h0, sign_pos (by norm_num)]
    norm_num
  · have hpos : (0 : ℚ) < n := by exact_mod_cast (by positivity : 0 < 2 ^ 52).trans hlo
    rw [wholeHao_natCast hlo.le hhi, if_neg (by omega), halfAway_of_nonneg h0,
      floor_natCast_add_half, sign_pos hpos]
    push_cast
    rfl

theorem wholeHao_of_not_roundsTooFar_of_nonneg (hq : rounded q = q) (h0 : 0 ≤ q)
    (h : ¬RoundsTooFar q) : wholeHao q = halfAway q := by
  simp only [RoundsTooFar, abs_of_nonneg h0, not_or, not_exists, not_and] at h
  obtain ⟨hhalf, hodd⟩ := h
  rw [halfAway_of_nonneg h0]
  rcases lt_or_ge q (1 / 2) with h1 | h1
  · rw [wholeHao_below_half hq h0 h1 hhalf, eq_comm, Int.floor_eq_zero_iff]
    exact ⟨by linarith, by linarith⟩
  rcases lt_or_ge q (2 ^ 52) with h2 | h2
  · exact wholeHao_eq_floor hq h1 h2
  obtain ⟨n, rfl⟩ := exists_eq_natCast hq h2
  have hlo : 2 ^ 52 ≤ n := by exact_mod_cast h2
  rw [floor_natCast_add_half]
  by_cases hhi : n < 2 ^ 53
  · have heven : n % 2 = 0 := by
      by_contra hne
      exact hodd n rfl (by omega) (by omega) hhi
    rw [wholeHao_natCast hlo hhi, if_pos heven]
  · rw [wholeHao_of_nonneg h0, rounded_add_half hq (by exact_mod_cast not_lt.mp hhi),
      Int.floor_natCast]

theorem wholeHao_of_roundsTooFar (h : RoundsTooFar q) :
    wholeHao q = halfAway q + SignType.sign q := by
  induction q using forall_of_nonneg_of_neg with
  | h0 q h0 => exact wholeHao_of_roundsTooFar_of_nonneg h0 h
  | hn q ih =>
    rw [wholeHao_neg, halfAway_neg, ih (roundsTooFar_neg.mp h), Left.sign_neg]
    simp [add_comm]

theorem wholeHao_of_not_roundsTooFar (hq : rounded q = q) (h : ¬RoundsTooFar q) :
    wholeHao q = halfAway q := by
  induction q using forall_of_nonneg_of_neg with
  | h0 q h0 => exact wholeHao_of_not_roundsTooFar_of_nonneg hq h0 h
  | hn q ih =>
    rw [rounded_neg, neg_inj] at hq
    rw [wholeHao_neg, halfAway_neg, ih hq (mt roundsTooFar_neg.mpr h)]

/-- The exceptions are far from the ends of the range. -/
theorem abs_halfAway_le (h : RoundsTooFar q) : |halfAway q| < 2 ^ 53 := by
  induction q using forall_of_nonneg_of_neg with
  | h0 q h0 =>
    rw [RoundsTooFar, abs_of_nonneg h0] at h
    rw [halfAway_of_nonneg h0]
    rcases h with rfl | ⟨n, rfl, -, -, hhi⟩
    · norm_num
    · rw [floor_natCast_add_half, Nat.abs_cast]
      exact_mod_cast hhi
  | hn q ih =>
    rw [halfAway_neg, abs_neg]
    exact ih (roundsTooFar_neg.mp h)

theorem sign_of_roundsTooFar (h : RoundsTooFar q) :
    (SignType.sign q : ℤ) = 1 ∨ (SignType.sign q : ℤ) = -1 := by
  rcases lt_trichotomy q 0 with hq | rfl | hq
  · simp [sign_neg hq]
  · simp only [RoundsTooFar, abs_zero] at h
    rcases h with h | ⟨n, h, hodd, -⟩
    · norm_num at h
    · have : n = 0 := by exact_mod_cast h.symm
      omega
  · simp [sign_pos hq]

/-- The amount of a finite number of Hao is the number rounded with halves away from zero and
brought into the range, save for the listed numbers, which come out one further from zero. -/
theorem ofNumber_hao_halfAway (x : Binary64) (hx : x.isFinite = true) :
    ∃ r, ofNumber .hao x = .silent (.ok r) ∧
      (r.hao = max (-2 ^ 63) (min (halfAway x.value) (2 ^ 63 - 1)) ↔ ¬RoundsTooFar x.value) ∧
      (RoundsTooFar x.value → r.hao = halfAway x.value + SignType.sign x.value) := by
  have hd := denotes_value hx
  refine ⟨nearest x, by rw [ofNumber, if_pos hx], ?_⟩
  rw [hao_nearest hd]
  by_cases h : RoundsTooFar x.value
  · have hb := abs_lt.mp (abs_halfAway_le h)
    have hs := sign_of_roundsTooFar h
    rw [wholeHao_of_roundsTooFar h]
    simp only [h, not_true_eq_false, iff_false, forall_const]
    omega
  · simp [h, wholeHao_of_not_roundsTooFar hd.rounded_eq h]

/-- The greatest odd number of Hao below `2^53` comes out even. -/
theorem ofNumber_hao_halfAway_odd :
    ∃ r, ofNumber .hao (.ofInt (2 ^ 53 - 1)) = .silent (.ok r) ∧ r.hao = 2 ^ 53 := by
  obtain ⟨hf, hv⟩ := denotes_ofInt_of_abs_le (n := 2 ^ 53 - 1) (by decide)
  have far : RoundsTooFar ((2 ^ 53 - 1 : ℤ) : ℚ) := .inr ⟨2 ^ 53 - 1, by norm_num, by norm_num⟩
  obtain ⟨r, hr, -, h⟩ := ofNumber_hao_halfAway (.ofInt (2 ^ 53 - 1)) hf
  rw [hv] at h
  refine ⟨r, hr, ?_⟩
  rw [h far, halfAway_of_nonneg (by norm_num), sign_pos (by norm_num)]
  norm_num

end Coinage.Amount
