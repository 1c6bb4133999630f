import Coinage.Proofs.FormatShape
import Coinage.Proofs.NearestEven
import Coinage.Proofs.UnitRange
import Mathlib.Algebra.Order.Round

/-!
# Fixed places

From the Hao down an amount is written with a fixed count `k` of places. The digits are those of the
multiple of `10^-k` that is nearest to the number shown, and a tie goes to the even last digit. The
number is what it is after its own roundings, so this says how it is written, not how near it is to
the exact value of the amount.

Where the number is finite there are at most 308 places, so none of them is made up.

Results.

* `nearestDigits_of_wholeNear`: the digits of a rounded multiple, with either sign.
* `NearestDigits.abs_sub_le`: they are at most half of the last place off.
* `places_le_of_isFinite`: the count of places of a finite number.
* `format_nearest_digits`: what is written for an amount from the Hao down.
-/
namespace Coinage

open Integer32 (signed)

namespace Decimal

/-- The last digit is even. -/
def EndsEven (digits : List Char) : Prop := ∃ c ∈ digits.getLast?, c ∈ ['0', '2', '4', '6', '8']

theorem endsEven_of_even {digits : List Char} (h : IsRow digits) (hne : digits ≠ [])
    (h2 : rowValue digits % 2 = 0) : EndsEven digits := by
  rcases List.eq_nil_or_concat' digits with rfl | ⟨front, c, rfl⟩
  · exact absurd rfl hne
  · have hc := h c (by simp)
    have hlt := digit_lt_ten hc
    rw [rowValue_concat] at h2
    refine ⟨c, by simp, ?_⟩
    rw [← digitChar_digit hc]
    generalize c.toNat - 48 = d at *
    have hd : d = 0 ∨ d = 2 ∨ d = 4 ∨ d = 6 ∨ d = 8 := by omega
    rcases hd with rfl | rfl | rfl | rfl | rfl <;> decide

/-- The number with this sign and these digits, the last `k` of them behind the point. -/
def fixedValue (k : ℕ) (negative : Bool) (digits : List Char) : ℚ :=
  signed negative (rowValue digits) / 10 ^ k

/-- No multiple of `10^-k` is nearer to `q` than the one with these digits, and where another one is
as near the last digit is even. -/
structure NearestDigits (k : ℕ) (q : ℚ) (negative : Bool) (digits : List Char) : Prop where
  nearest : ∀ j : ℤ, |fixedValue k negative digits - q| ≤ |j / 10 ^ k - q|
  even_of_tie : ∀ j : ℤ, j / 10 ^ k ≠ fixedValue k negative digits →
    |j / 10 ^ k - q| = |fixedValue k negative digits - q| → EndsEven digits

/-! ## Multiples of the last place -/

section Nearest

variable {k : ℕ} {q : ℚ} {negative : Bool} {digits : List Char}

/-- A distance, counted in the last place. -/
theorem abs_div_ten_pow_sub (k : ℕ) (x q : ℚ) :
    |x / 10 ^ k - q| = |x - q * 10 ^ k| / 10 ^ k := by
  have hp : (0 : ℚ) < (10 ^ k)⁻¹ := by positivity
  rw [div_eq_mul_inv, abs_mul_sub hp, div_inv_eq_mul, ← div_eq_mul_inv]

/-- A number is as far from the opposite of `q` as its own opposite is from `q`. -/
theorem abs_sub_turned (s : Bool) (x q : ℚ) :
    |x - (if s then -q else q)| = |(if s then -x else x) - q| := by
  cases s with
  | false => rfl
  | true =>
    rw [← abs_neg]
    simp only [if_true]
    ring_nf

theorem nearestDigits_of_wholeNear (s : Bool) (h0 : 0 ≤ q) (hrow : IsRow digits)
    (hne : digits ≠ []) (hv : rowValue digits = wholeNear (q * 10 ^ k)) :
    NearestDigits k (if s then -q else q) s digits := by
  have hp : (0 : ℚ) < 10 ^ k := by positivity
  have h0' : 0 ≤ q * 10 ^ k := by positivity
  -- both distances, with the sign taken off and counted in the last place
  have dist (j : ℤ) : |(j / 10 ^ k : ℚ) - (if s then -q else q)| =
      |((if s then -j else j : ℤ) : ℚ) - q * 10 ^ k| / 10 ^ k := by
    rw [abs_sub_turned, ← abs_div_ten_pow_sub]
    cases s <;> simp [neg_div]
  have own : |fixedValue k s digits - (if s then -q else q)| =
      |(wholeNear (q * 10 ^ k) : ℚ) - q * 10 ^ k| / 10 ^ k := by
    rw [fixedValue, dist, hv]
    cases s <;> simp
  constructor
  · intro j
    rw [own, dist, div_le_div_iff_of_pos_right hp]
    exact abs_wholeNear_sub_le_abs h0' _
  · intro j hj tie
    rw [own, dist, div_left_inj' hp.ne'] at tie
    refine endsEven_of_even hrow hne ?_
    rw [hv]
    refine even_wholeNear_of_tie h0' (j := if s then -j else j) ?_ tie.le
    intro e
    apply hj
    rw [fixedValue, hv]
    cases s with
    | false => simpa using congrArg (fun i : ℤ => (i : ℚ) / 10 ^ k) e
    | true =>
      have e' : j = -(wholeNear (q * 10 ^ k) : ℤ) := by
        rw [← e]
        simp
      simp [e']

/-- The nearest multiple is at most half of the last place away. -/
theorem NearestDigits.abs_sub_le (h : NearestDigits k q negative digits) :
    |fixedValue k negative digits - q| ≤ 1 / 10 ^ k / 2 := by
  have hr := abs_sub_round (q * 10 ^ k)
  calc |fixedValue k negative digits - q|
      ≤ |(round (q * 10 ^ k) : ℚ) / 10 ^ k - q| := h.nearest _
    _ = |q * 10 ^ k - round (q * 10 ^ k)| / 10 ^ k := by
        rw [abs_div_ten_pow_sub, abs_sub_comm]
    _ ≤ 1 / 2 / 10 ^ k := div_le_div_of_nonneg_right hr (by positivity)
    _ = 1 / 10 ^ k / 2 := div_right_comm _ _ _

end Nearest

end Decimal

namespace Amount

open Binary64 Decimal Magnitude

variable {a : Amount} {u : Denomination} {k : ℕ}

/-! ## Formatted amounts -/

theorem le_exponent_of_isFinite (h : (a.toUnit u).isFinite = true) : -316 ≤ u.exponent.value := by
  by_contra hu
  rw [toUnit_of_le a (by omega)] at h
  split at h <;> cases h

/-- A finite number has no more places than are rounded to. -/
theorem places_le_of_isFinite (h : (a.toUnit u).isFinite = true)
    (hu : u.exponent.value + 8 = -(k : ℤ)) : k ≤ 308 := by
  have := le_exponent_of_isFinite h
  omega

/-- The places of a magnitude are those of the nearest multiple. -/
theorem exists_isPlain_withPlaces (s : Bool) (m : Magnitude) (k : ℕ) :
    ∃ whole fraction, IsPlain s whole fraction (sign s ++ (m.withPlaces k).plain) ∧
      fraction.length = k ∧ NearestDigits k (finite s m).value s (whole ++ fraction) := by
  obtain ⟨whole, fraction, hp, hl, hv⟩ := plain_isPlain s (m.withPlaces k)
  have hm : 0 ≤ m.value := value_eq m ▸ valueAt_nonneg _
  rw [withPlaces_eq] at hl hv
  refine ⟨whole, fraction, hp, by simpa using hl, ?_⟩
  rw [value_finite]
  refine nearestDigits_of_wholeNear s hm (hp.whole_isRow.append hp.fraction_isRow) ?_ ?_
  · simp [hp.whole_ne_nil]
  · simpa [numerator] using hv

/-- From the Hao down, a number that is finite is written with as many places as the unit is powers
of ten below the Hao: the sign of the amount and the digits of the nearest multiple of the last
place, the last digit even in a tie. So what is written is off by half of the last place at most. -/
theorem format_nearest_digits (a : Amount) (u : Denomination) (k : ℕ)
    (hu : u.exponent.value + 8 = -(k : ℤ)) (h : (a.toUnit u).isFinite = true) :
    ∃ whole fraction,
      IsPlain (a.hao < 0) whole fraction ((a.format u).toList.takeWhile (· ≠ ' ')) ∧
      fraction.length = k ∧
      NearestDigits k (a.toUnit u).value (a.hao < 0) (whole ++ fraction) ∧
      |fixedValue k (a.hao < 0) (whole ++ fraction) - (a.toUnit u).value| ≤ 1 / 10 ^ k / 2 := by
  have hk := places_le_of_isFinite h hu
  obtain ⟨m, e⟩ := exists_toUnit_eq_finite h
  obtain ⟨whole, fraction, hp, hl, nearest⟩ := exists_isPlain_withPlaces (a.hao < 0) m k
  have text : numeral (a.toUnit u) u =
      String.ofList (sign (a.hao < 0) ++ (m.withPlaces k).plain) := by
    rw [e]
    exact numeral_below hu (hk.trans (by decide)) _ m
  rw [← e] at nearest
  exact ⟨whole, fraction, takeWhile_format text hp.ne_blank ▸ hp, hl, nearest, nearest.abs_sub_le⟩

/-- A number halfway between two multiples of the last place, written as the even one. -/
theorem format_nearest_digits_tie :
    ((-13 : ℤ) + 8 = -(5 : ℕ) ∧
      (toUnit ⟨1205140984, by decide, by decide⟩ ⟨-13, by decide, by decide⟩).isFinite = true) ∧
    (toUnit ⟨1205140984, by decide, by decide⟩ ⟨-13, by decide, by decide⟩).value =
      120514098399999 + 984375 / 10 ^ 6 ∧
    ∃ whole fraction, IsPlain false whole fraction "120514098399999.98438".toList ∧
      fraction.length = 5 ∧
      NearestDigits 5 (120514098399999 + 984375 / 10 ^ 6) false (whole ++ fraction) ∧
      |fixedValue 5 false (whole ++ fraction) - (120514098399999 + 984375 / 10 ^ 6)| ≤
        1 / 10 ^ 5 / 2 := by
  have places : (-13 : ℤ) + 8 = -(5 : ℕ) := by decide
  have number : (toUnit ⟨1205140984, by decide, by decide⟩
      ⟨-13, by decide, by decide⟩).isFinite = true := by decide +kernel
  have value : (toUnit ⟨1205140984, by decide, by decide⟩ ⟨-13, by decide, by decide⟩).value =
      120514098399999 + 984375 / 10 ^ 6 := by decide +kernel
  have text : format ⟨1205140984, by decide, by decide⟩ ⟨-13, by decide, by decide⟩ =
      "120514098399999.98438 1e-13 OMC" := by decide +kernel
  have h := format_nearest_digits ⟨1205140984, by decide, by decide⟩
    ⟨-13, by decide, by decide⟩ 5 places number
  rw [text, value] at h
  exact ⟨⟨places, number⟩, value, h⟩

end Amount

end Coinage
