import Coinage.Proofs.HalfAway
import Coinage.Proofs.SmallUnits
import Coinage.Proofs.UnitRange

/-!
# The two texts in Hao

An amount is written in Hao in two ways. `inspect` writes the integer; `format` writes the binary64
number nearest to it, without places. That number is whole, too: up to `2^53` it is the integer
itself, and above there are only whole numbers. It is written with all of its digits, so the two
texts are the same where the integer is a binary64 number, and nowhere else.

Results.

* `exists_intCast_eq_rounded`: a whole number is rounded to a whole number.
* `integer_inj`: different integers are written differently.
* `format_hao`: an amount in Hao is written as the rounded number in full.
* `format_hao_eq_inspect_iff`: where that is the text of the amount itself.
-/
namespace Coinage

/-! ## Integers as text -/

namespace Decimal

theorem integer_head?_iff {n : ℤ} : (integer n).head? = some '-' ↔ n < 0 := by
  by_cases h : n < 0
  · simp [integer, h]
  · simp only [integer, h, if_false, iff_false]
    intro e
    exact absurd (isRow_toDigits _ _ (List.mem_of_head? e)) (by decide)

/-- Different integers are written differently. -/
theorem integer_inj {m n : ℤ} : integer m = integer n ↔ m = n := by
  refine ⟨fun h => ?_, fun h => by rw [h]⟩
  have sign : m < 0 ↔ n < 0 := by rw [← integer_head?_iff, h, integer_head?_iff]
  simp only [integer_eq, sign, List.append_cancel_left_eq] at h
  have abs := congrArg rowValue h
  rw [rowValue_toDigits, rowValue_toDigits] at abs
  omega

end Decimal

/-! ## Whole numbers -/

namespace Binary64

open Amount

/-- A whole number is rounded to a whole number. -/
theorem exists_intCast_eq_rounded (n : ℤ) : ∃ w : ℤ, (w : ℚ) = rounded n := by
  by_cases h : |n| ≤ 2 ^ 53
  · exact ⟨n, (rounded_intCast h).symm⟩
  · have big : (2 : ℚ) ^ 53 ≤ |(n : ℚ)| := by exact_mod_cast (not_le.mp h).le
    have far := le_abs_rounded (rounded_two_pow 53) big
    rcases le_abs.mp far with pos | neg
    · obtain ⟨w, hw⟩ := exists_eq_natCast (rounded_rounded n) (by linarith)
      exact ⟨w, by rw [hw, Int.cast_natCast]⟩
    · rw [← rounded_neg] at neg
      obtain ⟨w, hw⟩ := exists_eq_natCast (rounded_rounded (-n)) (by linarith)
      exact ⟨-w, by rw [Int.cast_neg, Int.cast_natCast, ← hw, rounded_neg, neg_neg]⟩

end Binary64

namespace Amount

open Binary64 Magnitude

/-- The division by the number of Hao in one Hao changes nothing. -/
theorem denotes_toUnit_hao (a : Amount) : Denotes (a.toUnit .hao) (rounded a.hao) := by
  have h := a.denotes_toUnit (u := .hao) (k := 0) rfl (by omega)
  rwa [pow_zero, div_one, rounded_rounded] at h

theorem rounded_hao_neg_iff {a : Amount} : rounded a.hao < 0 ↔ a.hao < 0 := by
  refine ⟨fun h => ?_, rounded_hao_neg⟩
  by_contra h0
  exact h.not_ge (rounded_nonneg (by exact_mod_cast not_lt.mp h0))

/-- An amount in Hao is written as the rounded number in full. -/
theorem format_hao {a : Amount} {w : ℤ} (hw : (w : ℚ) = rounded a.hao) :
    a.format .hao = String.ofList (Decimal.integer w) ++ " Hao" := by
  obtain ⟨finite, value⟩ := a.denotes_toUnit_hao
  obtain ⟨m, e⟩ := exists_toUnit_eq_finite finite
  have sign : w < 0 ↔ a.hao < 0 := by
    rw [← rounded_hao_neg_iff, ← hw, Int.cast_lt_zero]
  have abs : m.value = w.natAbs := by
    rw [e, value_finite, ← hw] at value
    rw [Nat.cast_natAbs, Int.cast_abs, ← value]
    have := value_eq m ▸ valueAt_nonneg m.rank
    split <;> simp [abs_of_nonneg this]
  have digits : (m.withPlaces 0).plain = Nat.toDigits 10 w.natAbs := by
    rw [withPlaces_eq, abs, pow_zero, mul_one, wholeNear_natCast]
    simp [Decimal.plain]
  rw [format, e, numeral_below (k := 0) rfl (Nat.zero_le _), digits, Decimal.integer_eq]
  simp only [sign]
  rw [String.append_assoc]
  rfl

/-- The amounts whose integer is a binary64 number. -/
theorem exists_denotes_hao_iff {a : Amount} :
    (∃ x, Denotes x a.hao) ↔ rounded a.hao = a.hao := by
  refine ⟨fun ⟨x, hx⟩ => hx.rounded_eq, fun h => ⟨ofInt a.hao, ?_⟩⟩
  have number := a.denotes_hao
  rwa [h] at number

/-- The two texts of an amount in Hao are the same exactly where its integer is a binary64 number,
as it is up to `2^53`. -/
theorem format_hao_eq_inspect_iff (a : Amount) :
    (a.format .hao = a.inspect ↔ ∃ x : Binary64, Denotes x a.hao) ∧
      (|a.hao| ≤ 2 ^ 53 → a.format .hao = a.inspect) := by
  obtain ⟨w, hw⟩ := exists_intCast_eq_rounded a.hao
  have same : a.format .hao = a.inspect ↔ ∃ x : Binary64, Denotes x a.hao := by
    rw [format_hao hw, inspect, String.append_left_inj, String.ofList_inj, Decimal.integer_inj,
      exists_denotes_hao_iff, ← hw, Int.cast_inj]
  exact ⟨same, fun h => same.mpr ⟨_, denotes_ofInt_of_abs_le h⟩⟩

/-- The texts at `-2^53`, which are the same, and those of the greatest amount, which is no binary64
number. -/
theorem format_hao_eq_inspect_iff_ends :
    (|(-2 ^ 53 : ℤ)| ≤ 2 ^ 53 ∧ format ⟨-2 ^ 53, by decide, by decide⟩ .hao =
        inspect ⟨-2 ^ 53, by decide, by decide⟩) ∧
      format greatest .hao = "9223372036854775808 Hao" ∧
      inspect greatest = "9223372036854775807 Hao" ∧
      ¬∃ x : Binary64, Denotes x greatest.hao := by
  have low := (format_hao_eq_inspect_iff ⟨-2 ^ 53, by decide, by decide⟩).2 (by decide)
  have high := (format_hao_eq_inspect_iff greatest).1
  have float : format greatest .hao = "9223372036854775808 Hao" := by decide +kernel
  have exact : inspect greatest = "9223372036854775807 Hao" := by decide +kernel
  refine ⟨⟨by decide, low⟩, float, exact, mt high.mpr ?_⟩
  rw [float, exact]
  decide

end Amount

end Coinage
