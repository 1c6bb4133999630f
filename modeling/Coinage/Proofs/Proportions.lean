import Coinage.Proofs.NumberOrder
import Coinage.Proofs.WholeCounts

/-!
# Order of entered numbers and of multiples

Rounding keeps order at every stage, so greater numbers are entered as greater amounts, and a
multiple grows with the amount and with the factor, on its own side of zero. Between numbers that
are rounded too far the order is kept as well.

An infinite factor takes an amount to the end of the range on its side; nothing at all stays
nothing, since zero times an infinity is no number.

Results.

* `scale_mono_left`, `scale_anti_left`, `scale_mono_right`: multiples.
* `scale_mem`: the parts of an amount.
* `proportions_ordered`: these and entered numbers.
-/
namespace Coinage

namespace Amount

open Binary64

variable {a b : Amount} {x y : Binary64}

/-! ## Infinite factors -/

theorem le_iff_hao_le : a ≤ b ↔ a.hao ≤ b.hao := Iff.rfl

theorem least_le (a : Amount) : least ≤ a := a.lower

theorem le_greatest (a : Amount) : a ≤ greatest := a.upper

theorem scale_infinite (h : a.hao ≠ 0) (s : Bool) :
    a.scale (infinite s) = if decide (a.hao < 0) ^^ s then least else greatest := by
  have number := a.denotes_hao
  have sign := hasSign_ofInt a.hao
  obtain ⟨t, m, e, -⟩ := number.exists_finite
  rw [e] at number sign
  rw [scale, e, finite_mul_infinite, if_neg (number.rank_ne_zero (rounded_hao_ne_zero h)),
    nearest_infinite, hasSign_finite.mp sign]

theorem scale_infinite_of_pos (h : 0 < a.hao) (s : Bool) :
    a.scale (infinite s) = if s then least else greatest := by
  rw [scale_infinite h.ne', decide_eq_false h.le.not_gt, Bool.false_xor]

theorem scale_infinite_of_neg (h : a.hao < 0) (s : Bool) :
    a.scale (infinite s) = if s then greatest else least := by
  rw [scale_infinite h.ne, decide_eq_true h]
  cases s <;> rfl

/-- An infinite factor tells amounts apart by their signs only. -/
theorem scale_infinite_ordered (h : a ≤ b) :
    a.scale (infinite false) ≤ b.scale (infinite false) ∧
      b.scale (infinite true) ≤ a.scale (infinite true) := by
  rw [le_iff_hao_le] at h
  rcases lt_or_ge a.hao 0 with ha | ha
  · rw [scale_infinite_of_neg ha, scale_infinite_of_neg ha]
    exact ⟨least_le _, le_greatest _⟩
  rcases lt_or_ge 0 b.hao with hb | hb
  · rw [scale_infinite_of_pos hb, scale_infinite_of_pos hb]
    exact ⟨le_greatest _, least_le _⟩
  · obtain rfl : a = b := hao_inj.mp (by omega)
    rw [le_iff_hao_le, le_iff_hao_le]
    exact ⟨le_rfl, le_rfl⟩

/-! ## Multiples -/

theorem scale_mono_left (h : a ≤ b) (hx : Binary64.zero ≤ x) : a.scale x ≤ b.scale x := by
  rcases nonneg_cases hx with rfl | ⟨hf, h0⟩
  · exact (scale_infinite_ordered h).1
  · rw [le_iff_hao_le, hao_scale a hf, hao_scale b hf]
    exact haoNear_mono (mul_le_mul_of_nonneg_right (rounded_mono (Int.cast_le.mpr h)) h0)

theorem scale_anti_left (h : a ≤ b) (hx : x ≤ Binary64.zero) : b.scale x ≤ a.scale x := by
  rcases nonpos_cases hx with rfl | ⟨hf, h0⟩
  · exact (scale_infinite_ordered h).2
  · rw [le_iff_hao_le, hao_scale a hf, hao_scale b hf]
    exact haoNear_mono (mul_le_mul_of_nonpos_right (rounded_mono (Int.cast_le.mpr h)) h0)

theorem scale_mono_right (ha : zero ≤ a) (h : x ≤ y) : a.scale x ≤ a.scale y := by
  have ha : 0 ≤ a.hao := ha
  rcases ha.eq_or_lt with h0 | hpos
  · rw [le_iff_hao_le, hao_scale_of_hao_eq_zero h0.symm, hao_scale_of_hao_eq_zero h0.symm]
  rcases le_cases h with rfl | rfl | ⟨hx, hy, hv⟩
  · rw [scale_infinite_of_pos hpos]
    exact least_le _
  · rw [scale_infinite_of_pos hpos]
    exact le_greatest _
  · rw [le_iff_hao_le, hao_scale a hx, hao_scale a hy]
    exact haoNear_mono (mul_le_mul_of_nonneg_left hv (rounded_nonneg (Int.cast_nonneg ha)))

/-! ## Parts of an amount -/

theorem scale_zero (a : Amount) : a.scale .zero = zero := by
  rw [← hao_inj, hao_scale a denotes_zero.1, denotes_zero.2, mul_zero]
  exact_mod_cast haoNear_intCast (n := 0) (by decide)

theorem scale_one (h : |a.hao| ≤ 2 ^ 52) : a.scale (.ofInt 1) = a := by
  have range : |a.hao| ≤ 2 ^ 53 := h.trans (by omega)
  rw [← hao_inj, hao_scale_one, rounded_intCast range, haoNear_intCast range, if_neg (by omega)]

/-- A part of an amount goes from nothing to the amount. -/
theorem scale_mem (ha : zero ≤ a) (hb : a.hao ≤ 2 ^ 52) : a.scale .zero = zero ∧
    a.scale (.ofInt 1) = a ∧
    ∀ x, Binary64.zero ≤ x → x ≤ .ofInt 1 → zero ≤ a.scale x ∧ a.scale x ≤ a := by
  have none := a.scale_zero
  have all : a.scale (.ofInt 1) = a := scale_one ((abs_of_nonneg ha).trans_le hb)
  refine ⟨none, all, fun x h0 h1 => ⟨?_, ?_⟩⟩
  · have h := scale_mono_right ha h0
    rwa [none] at h
  · have h := scale_mono_right ha h1
    rwa [all] at h

/-! ## Entered numbers -/

theorem ofNumber_mono (basis : Basis) (hx : x.isFinite = true) (hy : y.isFinite = true)
    (h : x ≤ y) : ∃ r s, ofNumber basis x = .silent (.ok r) ∧ ofNumber basis y = .silent (.ok s) ∧
      r ≤ s := by
  obtain ⟨r, hr, er⟩ := exists_ofNumber basis hx
  obtain ⟨s, hs, es⟩ := exists_ofNumber basis hy
  have unit_nonneg : 0 ≤ basis.haoPerUnit := by cases basis <;> norm_num [Basis.haoPerUnit]
  refine ⟨r, s, hr, hs, ?_⟩
  rw [le_iff_hao_le, er, es]
  exact haoNear_mono (mul_le_mul_of_nonneg_right (value_le_value hx hy h) unit_nonneg)

/-- Entered numbers keep their order. A multiple grows with the amount for a factor that is not
below zero and falls for one that is not above, and it grows with the factor for an amount that is
not below zero, infinite factors included. Up to `2^52` Hao the part of an amount goes from nothing
to the amount. -/
theorem proportions_ordered :
    (∀ basis (x y : Binary64), x.isFinite = true → y.isFinite = true → x ≤ y →
      ∃ r s, ofNumber basis x = .silent (.ok r) ∧ ofNumber basis y = .silent (.ok s) ∧ r ≤ s) ∧
    (∀ (a b : Amount) (x : Binary64), a ≤ b →
      (Binary64.zero ≤ x → a.scale x ≤ b.scale x) ∧
      (x ≤ Binary64.zero → b.scale x ≤ a.scale x)) ∧
    (∀ (a : Amount) (x y : Binary64), zero ≤ a → x ≤ y → a.scale x ≤ a.scale y) ∧
    (∀ a : Amount, zero ≤ a → a.hao ≤ 2 ^ 52 → a.scale .zero = zero ∧ a.scale (.ofInt 1) = a ∧
      ∀ x, Binary64.zero ≤ x → x ≤ .ofInt 1 → zero ≤ a.scale x ∧ a.scale x ≤ a) :=
  ⟨fun basis _ _ => ofNumber_mono basis,
    fun _ _ _ h => ⟨scale_mono_left h, scale_anti_left h⟩,
    fun _ _ _ => scale_mono_right,
    fun _ => scale_mem⟩

/-- Half of a coin as a number, between nothing and one coin, as a factor, and below infinity. -/
theorem proportions_ordered_half :
    (∃ r s, ofNumber .coin .half = .silent (.ok r) ∧ ofNumber .coin (.ofInt 1) = .silent (.ok s) ∧
      r ≤ s) ∧
    zero.scale .half ≤ oneCoin.scale .half ∧
    oneCoin.scale .half ≤ oneCoin.scale (.infinite false) ∧
    zero ≤ oneCoin.scale .half ∧ oneCoin.scale .half ≤ oneCoin := by
  have half_nonneg : Binary64.zero ≤ .half := by decide +kernel
  have half_le_one : Binary64.half ≤ .ofInt 1 := by decide +kernel
  have half_le_infinite : Binary64.half ≤ .infinite false := by decide +kernel
  obtain ⟨entered, left, right, part⟩ := proportions_ordered
  exact ⟨entered .coin .half (.ofInt 1) denotes_half.1 denotes_one.1 half_le_one,
    (left zero oneCoin .half (by decide)).1 half_nonneg,
    right oneCoin .half (.infinite false) (by decide) half_le_infinite,
    (part oneCoin (by decide) (by decide)).2.2 .half half_nonneg half_le_one⟩

end Amount

end Coinage
