import Coinage.Proofs.NearestEven
import Coinage.Proofs.RelativeError

/-!
# Accuracy of amounts in denominations

An amount in a denomination is a quotient of two binary64 numbers. From the Hao up to `10^14` coins
both are exact for amounts up to `2^53`, and the quotient is the binary64 number nearest to the
exact one. Elsewhere the amount may have been rounded once, the power of ten up to twenty times, and
the quotient once more.

Results.

* `toUnit_isNearest`: the nearest number, ties to even.
* `abs_toUnit_mul_sub_le`: twenty-two roundings in denominations up to `10^±307` Hao.
* `toUnit_accuracy`: both.
-/
namespace Coinage.Amount

open Binary64

theorem toUnit_isNearest {a : Amount} {u : Denomination} (ha : |a.hao| ≤ 2 ^ 53)
    (hlo : -8 ≤ u.exponent.value) (hhi : u.exponent.value ≤ 14) :
    IsNearest (a.toUnit u) (a.hao / 10 ^ (u.exponent.value + 8)) := by
  obtain ⟨k, hk⟩ := Int.eq_ofNat_of_zero_le (show 0 ≤ u.exponent.value + 8 by omega)
  have fits : Fits (a.hao / 10 ^ k : ℚ) :=
    fits_of_abs_le 63 (abs_div_ten_pow_le a.abs_hao_le k) (by omega)
  rw [toUnit_eq a hk (by omega), rounded_intCast ha, hk, zpow_natCast, Nat.cast_pow, Nat.cast_ofNat]
  exact isNearest_ofRat false fits

/-! ## Beyond the exact powers -/

section Quotient

variable {p q : ℚ} {e : ℤ}

theorem ten_zpow_le (he : e ≤ 307) : (10 : ℚ) ^ e ≤ 2 ^ 1020 :=
  (zpow_le_zpow_right₀ (by norm_num) he).trans (by rw [zpow_ofNat]; exact ten_pow_le le_rfl)

/-- One rounding of the dividend, twenty of the divisor, one of the quotient. -/
theorem within_quotient (hq : 1 ≤ q) (hp : Within 20 p (10 ^ e)) (he : e ≤ 307) :
    Within 22 (rounded (rounded q / p)) (q / 10 ^ e) := by
  have dividend : Within 1 (rounded q) q :=
    .of_rounded ((zpow_le_one_of_nonpos₀ one_le_two (by omega)).trans hq)
  refine (dividend.div hp).rounded (by omega) ?_
  calc (2 : ℚ) ^ (-1021 : ℤ) ≤ 2 ^ (-1020 : ℤ) := zpow_le_zpow_right₀ one_le_two (by omega)
    _ = 1 / 2 ^ 1020 := by rw [zpow_neg, zpow_ofNat, one_div]
    _ ≤ q / 10 ^ e := div_le_div₀ (by linarith) hq (by positivity) (ten_zpow_le he)

theorem abs_quotient_mul_ten_zpow_sub_le (hq : 1 ≤ |q|) (hp : Within 20 p (10 ^ e))
    (he : e ≤ 307) : |rounded (rounded q / p) * 10 ^ e - q| ≤ |q| / 2 ^ 48 := by
  induction q using forall_of_nonneg_of_neg with
  | h0 q h0 =>
    rw [abs_of_nonneg h0] at hq ⊢
    have hpos : (0 : ℚ) < 10 ^ e := by positivity
    calc |rounded (rounded q / p) * 10 ^ e - q|
        = |rounded (rounded q / p) - q / 10 ^ e| * 10 ^ e := abs_mul_sub hpos _ _
      _ ≤ q / 10 ^ e / 2 ^ 48 * 10 ^ e := mul_le_mul_of_nonneg_right
          ((within_quotient hq hp he).abs_sub_le (by omega)) hpos.le
      _ = q / 2 ^ 48 := by field_simp
  | hn q ih =>
    rw [abs_neg] at hq ⊢
    rw [rounded_neg, neg_div, rounded_neg, neg_mul, neg_sub_neg, abs_sub_comm]
    exact ih hq

end Quotient

theorem abs_toUnit_mul_sub_le {a : Amount} {u : Denomination} (ha : a.hao ≠ 0)
    (hlo : -307 ≤ u.exponent.value + 8) (hhi : u.exponent.value + 8 ≤ 307)
    (hf : (a.toUnit u).isFinite = true) :
    |(a.toUnit u).value * 10 ^ (u.exponent.value + 8) - a.hao| ≤ |(a.hao : ℚ)| / 2 ^ 48 := by
  have power : Approximates 20 (haoPer u) (10 ^ (u.exponent.value + 8)) :=
    approximates_powerOfTen hlo hhi
  obtain ⟨z, hz⟩ :=
    a.denotes_hao.exists_div_eq (denotes_value power.1) power.2.left_pos.ne'
  rw [toUnit, hz] at hf ⊢
  rw [(denotes_ofRat z (fits_of_isFinite hf)).2]
  exact abs_quotient_mul_ten_zpow_sub_le (by exact_mod_cast Int.one_le_abs ha) power.2 hhi

/-- From the Hao up to `10^14` coins an amount of at most `2^53` Hao is shown as the nearest
binary64 number. In all denominations up to `10^±307` Hao what is shown is off by at most one part
in `2^48`, unless it is infinite. -/
theorem toUnit_accuracy (a : Amount) (u : Denomination) :
    (|a.hao| ≤ 2 ^ 53 → -8 ≤ u.exponent.value → u.exponent.value ≤ 14 →
      IsNearest (a.toUnit u) (a.hao / 10 ^ (u.exponent.value + 8))) ∧
    (a.hao ≠ 0 → -307 ≤ u.exponent.value + 8 → u.exponent.value + 8 ≤ 307 →
      (a.toUnit u).isFinite = true →
      |(a.toUnit u).value * 10 ^ (u.exponent.value + 8) - a.hao| ≤ |(a.hao : ℚ)| / 2 ^ 48) :=
  ⟨toUnit_isNearest, abs_toUnit_mul_sub_le⟩

/-- A coin as a part of a million, and the least amount in the greatest denomination in question. -/
theorem toUnit_accuracy_extremes :
    IsNearest (oneCoin.toUnit .mega) (1 / 10 ^ 6) ∧
    |(least.toUnit ⟨⟨299, by decide, by decide⟩⟩).value * 10 ^ (307 : ℤ) + 2 ^ 63| ≤ 2 ^ 15 := by
  constructor
  · have h := (toUnit_accuracy oneCoin .mega).1 (by decide) (by decide) (by decide)
    norm_num [oneCoin, Denomination.mega] at h ⊢
    exact h
  · have h := (toUnit_accuracy least ⟨⟨299, by decide, by decide⟩⟩).2 (by decide) (by decide)
      (by decide) (toUnit_isFinite _ (by decide))
    have e : ((least.hao : ℤ) : ℚ) = -2 ^ 63 := by norm_num [least]
    rw [e, abs_neg, sub_neg_eq_add] at h
    exact h.trans (by norm_num)

end Coinage.Amount
