import Coinage.Amount.Conversion
import Coinage.Proofs.Operations

/-!
# Rounding to whole Hao, on the rational side

A half is added in binary64 arithmetic and the sum cut off towards zero. `wholeHao q` is that
computation on the rational number `q`, without the ends of the range of amounts, and
`hao_nearest` says that the amount is `wholeHao q` brought into the range.

Results.

* `wholeHao_neg`: the rounding is odd, so only numbers not below zero need to be looked at.
* `wholeHao_mono`: it keeps order there.
* `wholeHao_eq`: a whole number is the result wherever the sum stays in front of the next one.
-/
namespace Coinage.Amount

open Binary64 Magnitude

/-! ## Cutting off -/

/-- The whole part, towards zero. -/
def wholePart (q : ℚ) : ℤ := if q < 0 then -⌊-q⌋ else ⌊q⌋

theorem floor_value (m : Magnitude) : ⌊m.value⌋ = (m.units / unitsInOne : ℕ) := by
  rw [Magnitude.value, Rat.mkRat_eq_div, Int.cast_natCast, Rat.floor_natCast_div_natCast]
  push_cast
  rfl

theorem hao_truncate {x : Binary64} {q : ℚ} (hx : Denotes x q) :
    (truncate x).hao = max (-2 ^ 63) (min (wholePart q) (2 ^ 63 - 1)) := by
  obtain ⟨s, m, rfl, hq⟩ := hx.exists_finite
  have h0 : 0 ≤ m.value := value_eq m ▸ valueAt_nonneg _
  rw [← value_eq] at hq
  cases s with
  | false =>
    have hw : wholePart q = ⌊m.value⌋ := by simp [wholePart, hq, h0.not_gt]
    rw [hw, floor_value]
    exact hao_clamp _
  | true =>
    have hw : wholePart q = -⌊m.value⌋ := by
      rcases h0.lt_or_eq with h | h
      · simp [wholePart, hq, h]
      · simp [wholePart, hq, ← h]
    rw [hw, floor_value]
    exact hao_clamp _

/-! ## Sums with a half -/

/-- From `2^53` on the spacing is at least two. -/
theorem one_le_exponent {k : ℕ} {t : ℤ} (hk : k < 2 ^ 53) (h : (2 : ℚ) ^ 53 ≤ k * 2 ^ t) :
    1 ≤ t := by
  by_contra hlt
  have ht : (2 : ℚ) ^ t ≤ 1 := zpow_le_one_of_nonpos₀ one_le_two (by omega)
  have hle : (k : ℚ) * 2 ^ t ≤ k * 1 := mul_le_mul_of_nonneg_left ht (Nat.cast_nonneg k)
  have hk' : (k : ℚ) < 2 ^ 53 := by exact_mod_cast hk
  linarith

/-- From `2^53` on a half is less than half of the spacing, and lost. -/
theorem rankNear_add_half {r : ℕ} (h : 2 ^ 53 ≤ valueAt r) : rankNear (valueAt r + 1 / 2) = r := by
  obtain ⟨k, t, ht, hlow, hk, hv⟩ := exists_normal r
  have hp : (0 : ℚ) < 2 ^ t := by positivity
  have hk' : (k : ℚ) + 1 ≤ 2 ^ (53 : ℤ) := by exact_mod_cast hk
  have h1 := one_le_exponent hk (hv ▸ h)
  have h2 : (2 : ℚ) ≤ 2 ^ t := by
    calc (2 : ℚ) = 2 ^ (1 : ℤ) := (zpow_one 2).symm
      _ ≤ 2 ^ t := zpow_le_zpow_right₀ one_le_two h1
  have hlo : t = -1074 ∨ 2 ^ (52 + t) ≤ (k * 2 ^ t + 1 / 2 : ℚ) := by
    right
    have h52 : (2 : ℚ) ^ (52 : ℤ) ≤ k := by exact_mod_cast hlow.resolve_left (by omega)
    rw [zpow_add₀ two_ne_zero]
    linarith [mul_le_mul_of_nonneg_right h52 hp.le]
  have hhi : (k * 2 ^ t + 1 / 2 : ℚ) ≤ 2 ^ (53 + t) := by
    rw [zpow_add₀ two_ne_zero]
    linarith [mul_le_mul_of_nonneg_right hk' hp.le]
  have hw : wholeNear ((k * 2 ^ t + 1 / 2 : ℚ) / 2 ^ t) = k := by
    refine wholeNear_eq (by positivity) ?_
    rw [add_div, mul_div_cancel_right₀ _ hp.ne', add_sub_cancel_left, abs_of_nonneg (by positivity),
      div_lt_iff₀ hp]
    linarith
  have hr := valueAt_rankNear ht (by positivity) hlo hhi
  rw [hw, ← hv] at hr
  exact valueAt_strictMono.injective hr

theorem rounded_add_half {q : ℚ} (hq : rounded q = q) (h : 2 ^ 53 ≤ q) :
    rounded (q + 1 / 2) = q := by
  rw [rounded_of_nonneg (by linarith)] at hq ⊢
  rw [← hq] at h
  have hr := rankNear_add_half h
  rw [hq] at hr
  rw [hr, hq]

/-- The sum with a half does not overflow. -/
theorem fits_add_half {x : Binary64} {q : ℚ} (hx : Denotes x q) : Fits (|q| + 1 / 2) := by
  obtain ⟨s, m, rfl, hq⟩ := hx.exists_finite
  have habs : |q| = valueAt m.rank := by
    have h0 := valueAt_nonneg m.rank
    cases s <;> simp [hq, h0]
  rw [habs]
  rcases le_total (2 ^ 53) (valueAt m.rank) with h | h
  · rw [Fits, rankNear_add_half h]
    exact m.rank_lt
  · refine fits_of_abs_le 54 ?_ (by omega)
    rw [abs_of_nonneg (by linarith [valueAt_nonneg m.rank])]
    linarith

/-! ## Adding a half first -/

/-- A half added on the far side of zero, and the rounded sum cut off towards zero. -/
def wholeHao (q : ℚ) : ℤ := if q < 0 then -⌊rounded (1 / 2 - q)⌋ else ⌊rounded (q + 1 / 2)⌋

theorem wholeHao_of_nonneg {q : ℚ} (h : 0 ≤ q) : wholeHao q = ⌊rounded (q + 1 / 2)⌋ :=
  if_neg h.not_gt

theorem wholeHao_of_neg {q : ℚ} (h : q < 0) : wholeHao q = -⌊rounded (1 / 2 - q)⌋ := if_pos h

theorem rounded_half : rounded (1 / 2) = 1 / 2 :=
  rounded_eq_self 1 (-1) (by norm_num) (by decide) (by decide)

@[simp] theorem wholeHao_zero : wholeHao 0 = 0 := by
  rw [wholeHao_of_nonneg le_rfl, zero_add, rounded_half]; norm_num

theorem wholeHao_neg (q : ℚ) : wholeHao (-q) = -wholeHao q := by
  rcases lt_trichotomy q 0 with h | rfl | h
  · rw [wholeHao_of_nonneg (by linarith), wholeHao_of_neg h, neg_neg, neg_add_eq_sub]
  · simp
  · rw [wholeHao_of_neg (by linarith), wholeHao_of_nonneg h.le, sub_neg_eq_add, add_comm]

theorem hao_nearest {x : Binary64} {q : ℚ} (hx : Denotes x q) :
    (nearest x).hao = max (-2 ^ 63) (min (wholeHao q) (2 ^ 63 - 1)) := by
  have hf := fits_add_half hx
  unfold nearest
  by_cases h : q < 0
  · have e : rounded (q - 1 / 2) = -rounded (1 / 2 - q) := by rw [← rounded_neg, neg_sub]
    have hpos : 0 < rounded (1 / 2 - q) := by
      have := rounded_mono (show (1 / 2 : ℚ) ≤ 1 / 2 - q by linarith)
      rw [rounded_half] at this
      linarith
    have hf' : Fits (q - 1 / 2) := by
      have : |q| + 1 / 2 = -(q - 1 / 2) := by rw [abs_of_neg h]; ring
      unfold Fits at hf ⊢
      rwa [this, rankNear_neg] at hf
    rw [if_pos (hx.lt_zero_iff.mpr h), hao_truncate (hx.sub denotes_half hf'), e, wholeHao_of_neg h,
      wholePart, if_pos (by linarith), neg_neg]
  · rw [not_lt] at h
    rw [abs_of_nonneg h] at hf
    have hpos : 0 ≤ rounded (q + 1 / 2) := rounded_nonneg (by linarith)
    rw [if_neg (mt hx.lt_zero_iff.mp h.not_gt), hao_truncate (hx.add denotes_half hf),
      wholeHao_of_nonneg h, wholePart, if_neg hpos.not_gt]

/-! ## From `2^52` on -/

theorem rounded_eq_wholeNear {x : ℚ} (h1 : 2 ^ 52 ≤ x) (h2 : x ≤ 2 ^ 53) :
    rounded x = wholeNear x := by
  have e := rounded_of_binade (t := 0) (by omega) (by linarith) (.inr (by simpa using h1))
    (by simpa using h2)
  rwa [zpow_zero, div_one, mul_one] at e

/-- From `2^52` on the sum of a whole number with a half is a tie. -/
theorem wholeHao_natCast {m : ℕ} (h1 : 2 ^ 52 ≤ m) (h2 : m < 2 ^ 53) :
    wholeHao m = if m % 2 = 0 then m else m + 1 := by
  have c1 : (2 : ℚ) ^ 52 ≤ m := by exact_mod_cast h1
  have c2 : (m : ℚ) + 1 ≤ 2 ^ 53 := by exact_mod_cast h2
  rw [wholeHao_of_nonneg (Nat.cast_nonneg m), rounded_eq_wholeNear (by linarith) (by linarith),
    wholeNear_tie, Int.floor_natCast]

/-! ## Estimates -/

theorem wholeHao_mono {p q : ℚ} (hp : 0 ≤ p) (h : p ≤ q) : wholeHao p ≤ wholeHao q := by
  rw [wholeHao_of_nonneg hp, wholeHao_of_nonneg (hp.trans h)]
  exact Int.floor_mono (rounded_mono (by linarith))

/-- The result where the rounded sum lies between `n` and the next whole number. -/
theorem wholeHao_eq {q : ℚ} {n : ℤ} (h0 : 0 ≤ q) (hlo : n ≤ rounded (q + 1 / 2))
    (hhi : rounded (q + 1 / 2) < n + 1) : wholeHao q = n := by
  rw [wholeHao_of_nonneg h0]
  exact Int.floor_eq_iff.mpr ⟨hlo, hhi⟩

theorem le_wholeHao {q : ℚ} {n : ℕ} (hn : rounded n = n) (h : n ≤ q) : n ≤ wholeHao q := by
  rw [wholeHao_of_nonneg (by linarith [Nat.cast_nonneg (α := ℚ) n]), Int.le_floor, Int.cast_natCast,
    ← hn]
  exact rounded_mono (by linarith)

/-- A binary64 value moves by at most one. -/
theorem abs_wholeHao_sub_le {q : ℚ} (h0 : 0 ≤ q) (hq : rounded q = q) :
    |(wholeHao q : ℚ) - q| ≤ 1 := by
  have h := abs_le.mp (abs_rounded_sub_le_abs hq (q + 1 / 2))
  have e : |q - (q + 1 / 2)| = 1 / 2 := by norm_num
  rw [e] at h
  have h1 := Int.floor_le (rounded (q + 1 / 2))
  have h2 := Int.lt_floor_add_one (rounded (q + 1 / 2))
  rw [wholeHao_of_nonneg h0, abs_le]
  constructor <;> linarith

end Coinage.Amount
