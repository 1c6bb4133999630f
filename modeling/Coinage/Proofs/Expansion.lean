import Coinage.Proofs.DigitRows
import Coinage.Proofs.ShortestDecimal
import Mathlib.Algebra.Order.Floor.Semiring
import Mathlib.Tactic.FieldSimp

/-!
# Decimal expansions

A rational number whose denominator divides a power of ten is written out in full in exactly one
way: a minus sign below zero, the whole part without leading zeros, and, unless the number is
whole, a point and the places after it without trailing zeros.

Results.

* `IsExpansion.unique`: there is at most one expansion of a number.
* `plain_isExpansion`: the plain layout of a decimal is the expansion of its value, if its last
  place is not zero.
-/
namespace Coinage.Decimal

/-- The characters in front of a numeral. -/
def sign : Bool → List Char
  | true => ['-']
  | false => []

/-- A plain numeral without superfluous zeros. -/
structure Numeral where
  negative : Bool
  whole : List Char
  fraction : List Char
  whole_isRow : IsRow whole
  whole_ne_nil : whole ≠ []
  whole_reduced : whole = ['0'] ∨ whole.head? ≠ some '0'
  fraction_isRow : IsRow fraction
  fraction_reduced : fraction.getLast? ≠ some '0'

namespace Numeral

/-- The sign, the whole part, and the places after a point, where there are any. -/
def text (n : Numeral) : List Char :=
  sign n.negative ++ n.whole ++ (if n.fraction = [] then [] else '.' :: n.fraction)

/-- The number that is written, without the sign. -/
def size (n : Numeral) : ℚ := rowValue (n.whole ++ n.fraction) / 10 ^ n.fraction.length

end Numeral

/-- The text writes out the number `q`. -/
def IsExpansion (q : ℚ) (text : List Char) : Prop :=
  ∃ n : Numeral, n.text = text ∧ n.size = |q| ∧ (n.negative = true ↔ q < 0)

/-! ## Uniqueness -/

namespace Numeral

theorem size_eq (n : Numeral) :
    n.size = rowValue n.whole + rowValue n.fraction / 10 ^ n.fraction.length := by
  rw [size, rowValue_append, Nat.cast_add, Nat.cast_mul, Nat.cast_pow, Nat.cast_ofNat, add_div,
    mul_div_cancel_right₀ _ (by positivity)]

theorem floor_size (n : Numeral) : ⌊n.size⌋₊ = rowValue n.whole := by
  have hf : (rowValue n.fraction : ℚ) < 10 ^ n.fraction.length := by
    exact_mod_cast rowValue_lt n.fraction_isRow
  rw [size_eq, Nat.floor_eq_iff (by positivity)]
  refine ⟨le_add_of_nonneg_right (by positivity), ?_⟩
  rw [add_lt_add_iff_left, div_lt_one (by positivity)]
  exact hf

/-- The last place is not zero, so a numeral is not longer than another for the same number. -/
theorem length_fraction_le {m n : Numeral}
    (h : rowValue m.fraction * 10 ^ n.fraction.length =
      rowValue n.fraction * 10 ^ m.fraction.length) :
    n.fraction.length ≤ m.fraction.length := by
  by_contra hlt
  obtain ⟨j, hj⟩ : ∃ j, n.fraction.length = j + 1 + m.fraction.length :=
    ⟨n.fraction.length - m.fraction.length - 1, by omega⟩
  have hne : n.fraction ≠ [] := by
    rw [← List.length_pos_iff]
    omega
  have he : rowValue n.fraction = rowValue m.fraction * 10 ^ j * 10 := by
    rw [hj, Nat.pow_add, ← Nat.mul_assoc, Nat.pow_succ, ← Nat.mul_assoc] at h
    exact (Nat.eq_of_mul_eq_mul_right (by positivity) h).symm
  exact rowValue_mod_ten_ne_zero n.fraction_isRow hne n.fraction_reduced
    (by rw [he, Nat.mul_mod_left])

theorem parts_eq {m n : Numeral} (h : m.size = n.size) :
    m.whole = n.whole ∧ m.fraction = n.fraction := by
  have hw : rowValue m.whole = rowValue n.whole := by rw [← floor_size, h, floor_size]
  have hf : rowValue m.fraction * 10 ^ n.fraction.length =
      rowValue n.fraction * 10 ^ m.fraction.length := by
    rw [size_eq, size_eq, hw, add_right_inj, div_eq_div_iff (by positivity) (by positivity)] at h
    exact_mod_cast h
  have hl : m.fraction.length = n.fraction.length :=
    le_antisymm (length_fraction_le hf.symm) (length_fraction_le hf)
  constructor
  · rw [← toDigits_rowValue m.whole_isRow m.whole_ne_nil m.whole_reduced, hw,
      toDigits_rowValue n.whole_isRow n.whole_ne_nil n.whole_reduced]
  · rw [hl] at hf
    exact eq_of_rowValue_eq m.fraction_isRow n.fraction_isRow hl
      (Nat.eq_of_mul_eq_mul_right (by positivity) hf)

end Numeral

/-- A number is written out in one way only. -/
theorem IsExpansion.unique {q : ℚ} {s t : List Char} (hs : IsExpansion q s) (ht : IsExpansion q t) :
    s = t := by
  obtain ⟨m, rfl, hm, sm⟩ := hs
  obtain ⟨n, rfl, hn, sn⟩ := ht
  obtain ⟨hw, hf⟩ := Numeral.parts_eq (hm.trans hn.symm)
  have hneg : m.negative = n.negative := Bool.eq_iff_iff.mpr (sm.trans sn.symm)
  rw [Numeral.text, Numeral.text, hneg, hw, hf]

/-! ## The plain layout -/

theorem toDigits_reduced (n : ℕ) :
    Nat.toDigits 10 n = ['0'] ∨ (Nat.toDigits 10 n).head? ≠ some '0' := by
  rcases Nat.eq_zero_or_pos n with rfl | h
  · exact .inl rfl
  · exact .inr (head?_toDigits h.ne')

/-- A whole number as a numeral. -/
def wholeNumeral (negative : Bool) (n : ℕ) : Numeral where
  negative
  whole := Nat.toDigits 10 n
  fraction := []
  whole_isRow := isRow_toDigits n
  whole_ne_nil := Nat.toDigits_ne_nil
  whole_reduced := toDigits_reduced n
  fraction_isRow := nofun
  fraction_reduced := nofun

/-- The places after the point: `k + 1` digits of a number that is smaller than their power of
ten. -/
theorem leftpad_toDigits {k n : ℕ} (h : n < 10 ^ (k + 1)) :
    IsRow ((Nat.toDigits 10 n).leftpad (k + 1) '0') ∧
      ((Nat.toDigits 10 n).leftpad (k + 1) '0').length = k + 1 ∧
      rowValue ((Nat.toDigits 10 n).leftpad (k + 1) '0') = n ∧
      ((Nat.toDigits 10 n).leftpad (k + 1) '0').getLast? = some (Nat.digitChar (n % 10)) := by
  have hl := (Nat.length_toDigits_le_iff (by omega) k.succ_pos).mpr h
  rw [List.leftpad]
  refine ⟨(isRow_replicate_zero _).append (isRow_toDigits n), ?_, ?_, ?_⟩
  · rw [List.length_append, List.length_replicate]
    omega
  · rw [rowValue_replicate_zero_append, rowValue_toDigits]
  · rw [List.getLast?_append, getLast?_toDigits]
    rfl

/-- A numeral with `k + 1` places, the last of them not zero. -/
def pointNumeral (negative : Bool) (k : ℕ) {n : ℕ} (h : n % 10 ≠ 0) : Numeral where
  negative
  whole := Nat.toDigits 10 (n / 10 ^ (k + 1))
  fraction := (Nat.toDigits 10 (n % 10 ^ (k + 1))).leftpad (k + 1) '0'
  whole_isRow := isRow_toDigits _
  whole_ne_nil := Nat.toDigits_ne_nil
  whole_reduced := toDigits_reduced _
  fraction_isRow := (leftpad_toDigits (Nat.mod_lt n (by positivity))).1
  fraction_reduced := by
    rw [(leftpad_toDigits (Nat.mod_lt n (by positivity))).2.2.2]
    rw [Nat.mod_mod_of_dvd n ⟨10 ^ k, by rw [Nat.pow_succ, Nat.mul_comm]⟩]
    simpa using h

theorem exists_numeral_plain (negative : Bool) (x : Decimal)
    (h : x.exponent < 0 → x.digits % 10 ≠ 0) :
    ∃ n : Numeral, n.text = sign negative ++ x.plain ∧ n.size = x.value ∧
      n.negative = negative := by
  obtain ⟨d, e⟩ := x
  cases e with
  | ofNat k =>
    refine ⟨wholeNumeral negative (d * 10 ^ k), ?_, ?_, rfl⟩
    · simp [Numeral.text, wholeNumeral, plain]
    · rw [Numeral.size_eq, value_eq]
      simp [wholeNumeral, rowValue]
  | negSucc k =>
    have h10 := h (Int.negSucc_lt_zero k)
    obtain ⟨-, hl, hv, -⟩ := leftpad_toDigits (Nat.mod_lt d (show 0 < 10 ^ (k + 1) by positivity))
    refine ⟨pointNumeral negative k h10, ?_, ?_, rfl⟩
    · simp [Numeral.text, pointNumeral, plain]
    · rw [Numeral.size, value_eq, rowValue_append]
      simp only [pointNumeral, hl, hv, rowValue_toDigits]
      rw [Nat.div_add_mod' d, zpow_negSucc, div_eq_mul_inv]

/-- The plain layout is the expansion of the value, a minus sign in front below zero. -/
theorem plain_isExpansion {q : ℚ} {x : Decimal} (hv : x.value = |q|)
    (h : x.exponent < 0 → x.digits % 10 ≠ 0) : IsExpansion q (sign (q < 0) ++ x.plain) := by
  obtain ⟨n, ht, hs, hn⟩ := exists_numeral_plain (q < 0) x h
  exact ⟨n, ht, hs.trans hv, by rw [hn, decide_eq_true_iff]⟩

end Coinage.Decimal
