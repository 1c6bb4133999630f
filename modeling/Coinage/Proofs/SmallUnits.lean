import Coinage.Proofs.FormatShape
import Coinage.Proofs.Reciprocals

/-!
# Denominations below the Hao

An amount is a whole number of any unit below the Hao. It is shown as a quotient by the rounded
reciprocal of a power of ten, so it is shown exactly where the product comes back from that
(`ConvertsExactly`), which the reciprocals of four powers of ten do not always allow. The text has
as many places as the unit is powers of ten below the Hao, and is still right where the number next
to the product is rounded back to it.

Results.

* `toUnit_eq_quotient`: the number as a quotient by the rounded reciprocal.
* `withPlaces_eq_iff`: when its places are all zero.
* `below_hao_exact_iff`: which amounts are converted exactly, and which texts are right.
* `below_hao_fails`: an amount that is not converted exactly.
-/
namespace Coinage

open Binary64 Magnitude

/-! ## Texts with a fixed count of places -/

namespace Decimal

/-- A whole number with so many zeros behind the point, and no point in front of none. -/
def withZeros (n : ℤ) (k : ℕ) : List Char := integer n ++ places (List.replicate k '0')

theorem integer_eq (n : ℤ) : integer n = sign (n < 0) ++ Nat.toDigits 10 n.natAbs := by
  by_cases h : n < 0 <;> simp [integer, sign, h]

theorem plain_natCast (n k : ℕ) :
    (⟨n * 10 ^ k, -k⟩ : Decimal).plain = Nat.toDigits 10 n ++ places (List.replicate k '0') := by
  cases k with
  | zero => simp [plain, places]
  | succ k =>
    have hz : (Nat.toDigits 10 0).leftpad (k + 1) '0' = List.replicate (k + 1) '0' := by
      simp [List.leftpad, List.replicate_succ']
    have hp : 0 < 10 ^ (k + 1) := by positivity
    show Nat.toDigits 10 (n * 10 ^ (k + 1) / 10 ^ (k + 1)) ++
      '.' :: (Nat.toDigits 10 (n * 10 ^ (k + 1) % 10 ^ (k + 1))).leftpad (k + 1) '0' = _
    rw [Nat.mul_div_cancel n hp, Nat.mul_mod_left, hz]
    simp [places, List.replicate_succ]

theorem withZeros_eq (n : ℤ) (k : ℕ) :
    withZeros n k = sign (n < 0) ++ (⟨n.natAbs * 10 ^ k, -k⟩ : Decimal).plain := by
  rw [withZeros, integer_eq, plain_natCast, List.append_assoc]

/-- With the same count of places, different digits are written differently. -/
theorem plain_inj {d d' : ℕ} {e : ℤ} :
    (⟨d, e⟩ : Decimal).plain = (⟨d', e⟩ : Decimal).plain ↔ d = d' := by
  refine ⟨fun h => ?_, fun h => by rw [h]⟩
  cases e with
  | ofNat k =>
    have hv := congrArg rowValue h
    simp only [plain, rowValue_toDigits] at hv
    exact Nat.eq_of_mul_eq_mul_right (by positivity) hv
  | negSucc k =>
    have hp : 0 < 10 ^ (k + 1) := by positivity
    obtain ⟨-, l, v, -⟩ := leftpad_toDigits (Nat.mod_lt d hp)
    obtain ⟨-, l', v', -⟩ := leftpad_toDigits (Nat.mod_lt d' hp)
    obtain ⟨hw, hf⟩ := List.append_inj' h (by simp only [List.length_cons, l, l'])
    have hdiv : d / 10 ^ (k + 1) = d' / 10 ^ (k + 1) := by
      rw [← rowValue_toDigits (d / 10 ^ (k + 1)), hw, rowValue_toDigits]
    have hmod : d % 10 ^ (k + 1) = d' % 10 ^ (k + 1) := by
      rw [← v, (List.cons.inj hf).2, v']
    rw [← Nat.div_add_mod d (10 ^ (k + 1)), hdiv, hmod, Nat.div_add_mod]

end Decimal

namespace Magnitude

variable {m : Magnitude} {k n : ℕ}

/-- The places of the number that stands for `n · 10^k` are all zero if it is that number, or next
to it at a distance that is lost in them. -/
theorem withPlaces_eq_iff (hk : k ≤ 22) (hn : n ≠ 0) (h : n * 10 ^ k ≤ 2 ^ 53)
    (hm : m.value = rounded (n / reciprocal k)) :
    m.withPlaces k = ⟨n * 10 ^ k * 10 ^ k, -k⟩ ↔
      ConvertsExactly k n ∨ 10 ^ k * spacingAt (n * 10 ^ k) ≤ 1 / 2 := by
  have h0 : 0 ≤ m.value * 10 ^ k := mul_nonneg (value_eq m ▸ valueAt_nonneg _) (by positivity)
  rw [withPlaces_eq, Decimal.mk.injEq]
  by_cases hc : ConvertsExactly k n
  · have e := (rounded_div_reciprocal_eq_iff hk hn h).mpr hc
    have hw : m.value * 10 ^ k = (n * 10 ^ k * 10 ^ k : ℕ) := by
      rw [hm, e]
      push_cast
      ring
    rw [hw, wholeNear_natCast]
    simp [hc]
  · have hk0 := ne_zero_of_not_convertsExactly hc
    have far := abs_rounded_div_reciprocal_sub hk hn h hc
    have e : m.value * 10 ^ k - (n * 10 ^ k * 10 ^ k : ℕ) =
        10 ^ k * (rounded (n / reciprocal k) - (n * 10 ^ k : ℕ)) := by
      rw [hm]
      push_cast
      ring
    have hp : (0 : ℚ) < 10 ^ k := by positivity
    rw [wholeNear_eq_iff_of_even h0 (even_mul_ten_pow hk0 _), e, abs_mul, far, abs_of_pos hp]
    simp [hc]

end Magnitude

namespace Amount

variable {a : Amount} {u : Denomination} {k : ℕ}

/-! ## Quotients by the reciprocal -/

theorem denotes_one_div_ten_pow (hk : k ≤ 22) :
    Denotes (ofInt 1 / ofInt (10 ^ k : ℕ)) (reciprocal k) := by
  have h1 : rounded ((1 : ℤ) : ℚ) = 1 := by simp
  have f1 : Fits ((1 : ℤ) : ℚ) := fits_of_abs_le 0 (by simp) (by omega)
  have fq : Fits (1 / 10 ^ k) := by
    refine fits_of_abs_le 0 ?_ (by omega)
    rw [abs_of_nonneg (by positivity), pow_zero]
    exact div_le_one_of_le₀ (one_le_pow₀ (by norm_num)) (by positivity)
  rw [ofInt_div_ofInt (by positivity) (rounded_ten_pow hk) f1 (fits_ten_pow hk), h1, Nat.cast_pow,
    Nat.cast_ofNat]
  exact denotes_ofRat false fq

theorem denotes_haoPer (hu : u.exponent.value + 8 = -(k : ℤ)) (hk : k ≤ 22) :
    Denotes (haoPer u) (reciprocal k) := by
  cases k with
  | zero =>
    rw [haoPer_eq (k := 0) (by simpa using hu) hk, reciprocal_zero]
    simpa using denotes_ofInt_of_abs_le (n := 1) (by decide)
  | succ j =>
    have hu' : u.exponent.value + 8 = Int.negSucc j := by
      rw [hu]
      rfl
    unfold haoPer baseExponent
    rw [hu', powerOfTen, pow_ten hk]
    exact denotes_one_div_ten_pow hk

/-- The quotient does not overflow. -/
theorem fits_div_reciprocal (hk : k ≤ 22) (hN : a.hao.natAbs * 10 ^ k ≤ 2 ^ 53) :
    Fits (a.hao / reciprocal k) := by
  have hN' : ((a.hao.natAbs * 10 ^ k : ℕ) : ℚ) ≤ 2 ^ 53 := by exact_mod_cast hN
  refine fits_of_abs_le 54 ?_ (by omega)
  rw [abs_div, abs_of_pos (reciprocal_pos hk), ← Int.cast_abs, ← Nat.cast_natAbs]
  linarith [div_reciprocal_le a.hao.natAbs hk]

/-- Below the Hao an amount is shown as a quotient by the rounded reciprocal, with its sign. -/
theorem toUnit_eq_quotient (h0 : a.hao ≠ 0) (hu : u.exponent.value + 8 = -(k : ℤ)) (hk : k ≤ 22)
    (hN : a.hao.natAbs * 10 ^ k ≤ 2 ^ 53) :
    ∃ m, a.toUnit u = finite (a.hao < 0) m ∧
      m.value = rounded (a.hao.natAbs / reciprocal k) := by
  have hle : |a.hao| ≤ 2 ^ 53 := by
    have := Nat.le_mul_of_pos_right a.hao.natAbs (show 0 < 10 ^ k by positivity)
    rw [Int.abs_eq_natAbs]
    omega
  have quotient := (denotes_ofInt_of_abs_le hle).div (denotes_haoPer hu hk)
    (reciprocal_pos hk).ne' (fits_div_reciprocal hk hN)
  obtain ⟨s, m, e, -⟩ := quotient.exists_finite
  have sign := toUnit_hasSign h0 u
  rw [toUnit, e, hasSign_finite] at sign
  refine ⟨m, by rw [toUnit, e, sign], ?_⟩
  have hv := quotient.2
  rw [e, sign, value_finite] at hv
  rcases Int.natAbs_eq a.hao with h | h
  · rw [decide_eq_false (by omega), h] at hv
    simpa using hv
  · rw [decide_eq_true (by omega), h] at hv
    simpa [neg_div] using hv

/-! ## Exact conversions -/

variable {m : Magnitude}

theorem denotes_mul_ten_pow_iff :
    Denotes (finite (a.hao < 0) m) (a.hao * 10 ^ k) ↔ m.value = (a.hao.natAbs * 10 ^ k : ℕ) := by
  have hf : (finite (a.hao < 0) m).isFinite = true := rfl
  simp only [Denotes, hf, true_and, value_finite, Nat.cast_mul, Nat.cast_natAbs, Nat.cast_pow,
    Nat.cast_ofNat]
  by_cases h : a.hao < 0
  · simp [h, abs_of_neg h, neg_eq_iff_eq_neg]
  · simp [h, abs_of_nonneg (not_lt.mp h)]

theorem format_eq_withZeros_iff (hu : u.exponent.value + 8 = -(k : ℤ)) (hk : k ≤ 22)
    (e : a.toUnit u = finite (a.hao < 0) m) :
    a.format u = String.ofList (Decimal.withZeros (a.hao * 10 ^ k) k) ++ " " ++ u.label ↔
      m.withPlaces k = ⟨a.hao.natAbs * 10 ^ k * 10 ^ k, -k⟩ := by
  have hmax : k ≤ maxPlaces := by
    rw [maxPlaces]
    omega
  have hp : (0 : ℤ) < 10 ^ k := by positivity
  have hs : a.hao * 10 ^ k < 0 ↔ a.hao < 0 :=
    ⟨fun h => neg_of_mul_neg_left h hp.le, fun h => mul_neg_of_neg_of_pos h hp⟩
  rw [format, e, numeral_below hu hmax, Decimal.withZeros_eq, String.append_left_inj,
    String.append_left_inj, String.ofList_inj]
  simp only [hs, Int.natAbs_mul, Int.natAbs_pow, List.append_cancel_left_eq]
  rw [withPlaces_eq, Decimal.plain_inj, Decimal.mk.injEq]
  simp

theorem places_le_fifteen {n : ℕ} (hn : n ≠ 0) (h : n * 10 ^ k ≤ 2 ^ 53) : k ≤ 15 := by
  have hle : 10 ^ k ≤ n * 10 ^ k := Nat.le_mul_of_pos_left _ (by omega)
  have hlt : 10 ^ k < 10 ^ 16 := by omega
  have := (Nat.pow_lt_pow_iff_right (by omega)).mp hlt
  omega

/-- An amount whose exact value in a denomination below the Hao is not beyond `2^53` is shown as
that number exactly where the reciprocal allows it, and its text has the exact number and only zeros
behind the point also where a spacing is lost in the places. The reciprocals of four powers of ten
do not allow it always, the others do. -/
theorem below_hao_exact_iff (a : Amount) (u : Denomination) (k : ℕ) (h0 : a.hao ≠ 0)
    (hu : u.exponent.value + 8 = -(k : ℤ)) (hN : |a.hao| * 10 ^ k ≤ 2 ^ 53) :
    (Denotes (a.toUnit u) (a.hao * 10 ^ k) ↔ ConvertsExactly k a.hao.natAbs) ∧
      (a.format u = String.ofList (Decimal.withZeros (a.hao * 10 ^ k) k) ++ " " ++ u.label ↔
        ConvertsExactly k a.hao.natAbs ∨
          10 ^ k * spacingAt (a.hao.natAbs * 10 ^ k) ≤ 1 / 2) ∧
      (k ∉ [5, 9, 11, 15] → ConvertsExactly k a.hao.natAbs) := by
  have h : a.hao.natAbs * 10 ^ k ≤ 2 ^ 53 := by
    rw [Int.abs_eq_natAbs] at hN
    exact_mod_cast hN
  have hn : a.hao.natAbs ≠ 0 := by omega
  have hk := places_le_fifteen hn h
  obtain ⟨m, e, hm⟩ := toUnit_eq_quotient h0 hu (by omega) h
  refine ⟨?_, ?_, fun hmem => convertsExactly_of_not_mem hk hmem _⟩
  · rw [e, denotes_mul_ten_pow_iff, hm]
    exact rounded_div_reciprocal_eq_iff (by omega) hn h
  · rw [format_eq_withZeros_iff hu (by omega) e]
    exact withPlaces_eq_iff (by omega) hn h hm

/-- One Hao in units of a hundred thousandth of it is not the exact number, but is written as it. -/
theorem below_hao_exact_iff_one :
    ¬Denotes (toUnit ⟨1, by decide, by decide⟩ ⟨⟨-13, by decide, by decide⟩⟩) ((1 : ℤ) * 10 ^ 5) ∧
      format ⟨1, by decide, by decide⟩ ⟨⟨-13, by decide, by decide⟩⟩ =
        "100000.00000 1e-13 OMC" := by
  obtain ⟨h, h', -⟩ := below_hao_exact_iff ⟨1, by decide, by decide⟩
    ⟨⟨-13, by decide, by decide⟩⟩ 5 (by decide) (by decide) (by decide)
  refine ⟨mt h.mp (by decide +kernel), (h'.mpr (.inr (by decide +kernel))).trans ?_⟩
  rfl

/-- Not every amount is shown and written as its exact number. -/
theorem below_hao_fails :
    ¬∀ (a : Amount) (u : Denomination) (k : ℕ), a.hao ≠ 0 → u.exponent.value + 8 = -(k : ℤ) →
      |a.hao| * 10 ^ k ≤ 2 ^ 53 → Denotes (a.toUnit u) (a.hao * 10 ^ k) ∧
        a.format u = String.ofList (Decimal.withZeros (a.hao * 10 ^ k) k) ++ " " ++ u.label := by
  intro h
  obtain ⟨number, -⟩ := h ⟨90071992547, by decide, by decide⟩ ⟨⟨-13, by decide, by decide⟩⟩ 5
    (by decide) (by decide) (by decide)
  obtain ⟨m, e, hm⟩ := toUnit_eq_quotient (a := ⟨90071992547, by decide, by decide⟩)
    (u := ⟨⟨-13, by decide, by decide⟩⟩) (k := 5) (by decide) (by decide) (by decide) (by decide)
  rw [e, denotes_mul_ten_pow_iff, hm, rounded_div_reciprocal_eq_iff (by decide) (by decide)
    (by decide)] at number
  exact absurd number (by decide +kernel)

end Amount

end Coinage
