import Coinage.Proofs.CoinRoundTrip
import Coinage.Proofs.HalfAway

/-!
# Products of finite numbers in whole Hao

Entered numbers and multiples of amounts are products of two finite numbers that are rounded to
whole Hao. `haoNear q` is the number of Hao that the exact product `q` ends in. It holds of every
product: one that overflows is beyond the range of amounts on its own side already, so the infinity
ends in the same amount as the exact product would.

Results.

* `hao_nearest_ofRat`: the amount next to a rounded number.
* `exists_ofNumber`, `hao_scale`: entered numbers and multiples.
* `haoNear_mono`: the order of exact products is kept.
-/
namespace Coinage

/-- The Hao in one unit of an entered number. -/
def Basis.haoPerUnit : Basis → ℚ
  | coin => 10 ^ 8
  | hao => 1

namespace Amount

open Binary64

variable {q : ℚ} {x : Binary64}

/-- The Hao that an exact product ends in: rounded, brought to a whole number and into the range. -/
def haoNear (q : ℚ) : ℤ := max (-2 ^ 63) (min (wholeHao (rounded q)) (2 ^ 63 - 1))

/-! ## Beyond the range -/

theorem nearest_infinite (s : Bool) : nearest (infinite s) = if s then least else greatest := by
  cases s <;> decide +kernel

theorem le_wholeHao_rounded (h : 2 ^ 63 ≤ q) : 2 ^ 63 ≤ wholeHao (rounded q) := by
  have hr := rounded_mono h
  rw [rounded_two_pow] at hr
  have hn : rounded ((2 ^ 63 : ℕ) : ℚ) = (2 ^ 63 : ℕ) := by exact_mod_cast rounded_two_pow 63
  exact_mod_cast le_wholeHao hn (by exact_mod_cast hr)

theorem haoNear_of_le (h : 2 ^ 63 ≤ q) : haoNear q = 2 ^ 63 - 1 := by
  have := le_wholeHao_rounded h
  unfold haoNear
  omega

theorem haoNear_of_le_neg (h : q ≤ -2 ^ 63) : haoNear q = -2 ^ 63 := by
  have hw := le_wholeHao_rounded (q := -q) (by linarith)
  rw [rounded_neg, wholeHao_neg] at hw
  unfold haoNear
  omega

theorem lt_abs_of_not_fits (h : ¬Fits q) : 2 ^ 63 < |q| :=
  not_le.mp fun hle => h (fits_of_abs_le 63 hle (by omega))

/-- An infinity ends where the exact number would have ended. -/
theorem hao_nearest_ofRat (zeroSign : Bool) (q : ℚ) :
    (nearest (ofRat zeroSign q)).hao = haoNear q := by
  by_cases hf : Fits q
  · exact hao_nearest (denotes_ofRat zeroSign hf)
  · rw [ofRat_of_not_fits zeroSign hf, nearest_infinite]
    rcases lt_abs.mp (lt_abs_of_not_fits hf) with h | h
    · have h0 : 0 < q := by linarith
      rw [haoNear_of_le h.le]
      simp [h0.ne', h0.not_gt, greatest]
    · have h0 : q < 0 := by linarith
      rw [haoNear_of_le_neg (by linarith)]
      simp [h0.ne, h0, least]

/-! ## Entered numbers and multiples -/

theorem exists_ofNumber (basis : Basis) (hx : x.isFinite = true) :
    ∃ r, ofNumber basis x = .silent (.ok r) ∧ r.hao = haoNear (x.value * basis.haoPerUnit) := by
  have number := denotes_value hx
  cases basis with
  | hao =>
    refine ⟨_, if_pos hx, ?_⟩
    rw [Basis.haoPerUnit, mul_one, hao_nearest number, haoNear, number.rounded_eq]
  | coin =>
    obtain ⟨z, product⟩ := number.exists_mul_eq denotes_oneCoin
    refine ⟨_, if_pos hx, ?_⟩
    rw [product, hao_nearest_ofRat]
    rfl

theorem hao_scale (a : Amount) (hx : x.isFinite = true) :
    (a.scale x).hao = haoNear (rounded a.hao * x.value) := by
  obtain ⟨z, product⟩ := (denotes_ofInt a.fits_hao).exists_mul_eq (denotes_value hx)
  rw [scale, product, hao_nearest_ofRat]

theorem hao_scale_one (a : Amount) : (a.scale (.ofInt 1)).hao = haoNear (rounded a.hao) := by
  rw [hao_scale a denotes_one.1, denotes_one.2, mul_one]

/-! ## Order -/

theorem wholeHao_nonneg (h : 0 ≤ q) : 0 ≤ wholeHao q := by
  simpa using wholeHao_mono le_rfl h

theorem wholeHao_le_wholeHao {p q : ℚ} (h : p ≤ q) : wholeHao p ≤ wholeHao q := by
  rcases le_or_gt 0 p with hp | hp
  · exact wholeHao_mono hp h
  have hp' := wholeHao_nonneg (q := -p) (by linarith)
  rw [wholeHao_neg] at hp'
  rcases le_or_gt 0 q with hq | hq
  · linarith [wholeHao_nonneg hq]
  · have := wholeHao_mono (p := -q) (q := -p) (by linarith) (by linarith)
    rw [wholeHao_neg, wholeHao_neg] at this
    linarith

theorem haoNear_mono {p q : ℚ} (h : p ≤ q) : haoNear p ≤ haoNear q := by
  have := wholeHao_le_wholeHao (rounded_mono h)
  unfold haoNear
  omega

end Amount

end Coinage
