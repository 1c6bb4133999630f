import Coinage.Proofs.Products

/-!
# Products in whole Hao

An entered number of coins and a multiple of an amount are products that end in a whole number of
Hao. Below `2^52` the product is rounded by at most a quarter, and the whole number is at most half
a Hao away from the rounded product, but for the number just below one half, where it is a little
more. Together they stay below one Hao.

Results.

* `abs_wholeHao_sub_le_of_le`: the error of the last rounding, up to `2^52`.
* `abs_haoNear_sub_lt`: the error of both roundings.
* `products_within_one_hao`: entered numbers of coins and multiples of amounts.
-/
namespace Coinage.Amount

open Binary64

variable {q : ℚ}

theorem abs_halfAway_sub_le (q : ℚ) : |(halfAway q : ℚ) - q| ≤ 1 / 2 := by
  induction q using forall_of_nonneg_of_neg with
  | h0 q h0 =>
    have h1 := Int.floor_le (q + 1 / 2)
    have h2 := Int.lt_floor_add_one (q + 1 / 2)
    rw [halfAway_of_nonneg h0, abs_le]
    constructor <;> linarith
  | hn q ih =>
    rw [halfAway_neg, Int.cast_neg, neg_sub_neg, abs_sub_comm]
    exact ih

/-- Up to `2^52` one number only is rounded too far. -/
theorem eq_of_roundsTooFar (h0 : 0 ≤ q) (h : q ≤ 2 ^ 52) (far : RoundsTooFar q) :
    q = 1 / 2 - 1 / 2 ^ 54 := by
  rw [RoundsTooFar, abs_of_nonneg h0] at far
  refine far.resolve_right ?_
  rintro ⟨n, rfl, -, hlo, -⟩
  have : n ≤ 2 ^ 52 := by exact_mod_cast h
  omega

theorem abs_wholeHao_sub_le_of_le (hq : rounded q = q) (h : |q| ≤ 2 ^ 52) :
    |(wholeHao q : ℚ) - q| ≤ 1 / 2 + 1 / 2 ^ 54 := by
  induction q using forall_of_nonneg_of_neg with
  | h0 q h0 =>
    rw [abs_of_nonneg h0] at h
    by_cases far : RoundsTooFar q
    · rw [eq_of_roundsTooFar h0 h far, wholeHao_just_below_half]
      norm_num
    · rw [wholeHao_of_not_roundsTooFar hq far]
      exact (abs_halfAway_sub_le q).trans (by norm_num)
  | hn q ih =>
    rw [rounded_neg, neg_inj] at hq
    rw [abs_neg] at h
    rw [wholeHao_neg, Int.cast_neg, neg_sub_neg, abs_sub_comm]
    exact ih hq h

/-- The rounding of the product and the one to whole Hao together. -/
theorem abs_wholeHao_rounded_sub_lt (h : |q| ≤ 2 ^ 52) : |(wholeHao (rounded q) : ℚ) - q| < 1 := by
  have product : |rounded q - q| ≤ 1 / 4 := by
    have := abs_rounded_sub_le (t := -1) (by omega) (h.trans_eq (by norm_num))
    norm_num at this ⊢
    exact this
  have whole := abs_wholeHao_sub_le_of_le (rounded_rounded q)
    (abs_rounded_le (rounded_two_pow 52) h)
  calc |(wholeHao (rounded q) : ℚ) - q|
      ≤ |(wholeHao (rounded q) : ℚ) - rounded q| + |rounded q - q| := abs_sub_le _ _ _
    _ ≤ 1 / 2 + 1 / 2 ^ 54 + 1 / 4 := add_le_add whole product
    _ < 1 := by norm_num

theorem abs_haoNear_sub_lt (h : |q| ≤ 2 ^ 52) : |(haoNear q : ℚ) - q| < 1 := by
  have hlt := abs_wholeHao_rounded_sub_lt h
  have range : |wholeHao (rounded q)| ≤ 2 ^ 53 := by
    have : |(wholeHao (rounded q) : ℚ)| ≤ 2 ^ 53 :=
      calc |(wholeHao (rounded q) : ℚ)| ≤ |(wholeHao (rounded q) : ℚ) - q| + |q| := by
            simpa using abs_sub_le (wholeHao (rounded q) : ℚ) q 0
        _ ≤ 1 + 2 ^ 52 := add_le_add hlt.le h
        _ ≤ 2 ^ 53 := by norm_num
    exact_mod_cast this
  obtain ⟨lo, hi⟩ := abs_le.mp range
  rw [haoNear, min_eq_left (by omega), max_eq_right (by omega)]
  exact hlt

/-- An entered number of coins and a multiple of an amount are less than one Hao away from the exact
product, as long as this is below `2^52` Hao. -/
theorem products_within_one_hao :
    (∀ x : Binary64, x.isFinite = true → |x.value| * 10 ^ 8 < 2 ^ 52 →
      ∃ r, ofNumber .coin x = .silent (.ok r) ∧ |(r.hao : ℚ) - x.value * 10 ^ 8| < 1) ∧
    (∀ (a : Amount) (x : Binary64), |a.hao| ≤ 2 ^ 53 → x.isFinite = true →
      |a.hao * x.value| < 2 ^ 52 → |((a.scale x).hao : ℚ) - a.hao * x.value| < 1) := by
  constructor
  · intro x hx h
    obtain ⟨r, hr, e⟩ := exists_ofNumber .coin hx
    refine ⟨r, hr, ?_⟩
    rw [e, Basis.haoPerUnit]
    apply abs_haoNear_sub_lt
    rw [abs_mul, abs_of_pos (a := (10 : ℚ) ^ 8) (by norm_num)]
    exact h.le
  · intro a x ha hx h
    rw [hao_scale a hx, rounded_intCast ha]
    exact abs_haoNear_sub_lt h.le

/-- Half a coin, and half of an odd amount just below `2^53`. -/
theorem products_within_one_hao_half :
    (∃ r, ofNumber .coin .half = .silent (.ok r) ∧ |(r.hao : ℚ) - 50000000| < 1) ∧
    |((scale ⟨2 ^ 53 - 1, by decide, by decide⟩ .half).hao : ℚ) - (2 ^ 52 - 1 / 2)| < 1 := by
  obtain ⟨hf, hv⟩ := denotes_half
  constructor
  · have h := products_within_one_hao.1 .half hf (by rw [hv]; norm_num)
    rw [hv] at h
    norm_num at h ⊢
    exact h
  · have h := products_within_one_hao.2 ⟨2 ^ 53 - 1, by decide, by decide⟩ .half (by decide) hf
      (by rw [hv]; norm_num)
    rw [hv] at h
    norm_num at h ⊢
    exact h

end Coinage.Amount
