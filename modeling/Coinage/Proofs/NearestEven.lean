import Coinage.Proofs.Operations

/-!
# Nearest numbers, ties to even

`IsNearest x q` says what rounding `q` owes without saying how it is computed: no finite number is
nearer to `q` than `x`, and where another one is equally near the significand of `x` is even.

Between two multiples of the spacing a tie is halfway, where `wholeNear` takes the even one. The
other number of a tie cannot lie on a finer spacing below the binade, since the start of the binade
would be nearer.

Results.

* `even_wholeNear_of_tie`: a tie between whole numbers.
* `even_rankNear_of_tie`: a tie between binary64 values.
* `isNearest_ofRat`: `ofRat` gives the nearest number.
-/
namespace Coinage

/-! ## Whole numbers -/

/-- Where another whole number is as near as the rounding, the rounding is even. -/
theorem even_wholeNear_of_tie {q : ℚ} {j : ℤ} (h0 : 0 ≤ q) (hj : j ≠ wholeNear q)
    (h : |j - q| ≤ |(wholeNear q : ℚ) - q|) : wholeNear q % 2 = 0 := by
  have hw := abs_wholeNear_sub_le h0
  obtain ⟨w1, w2⟩ := abs_le.mp hw
  obtain ⟨j1, j2⟩ := abs_le.mp (h.trans hw)
  generalize hk : wholeNear q = k at *
  rcases lt_or_gt_of_ne hj with hlt | hlt
  · have hle : (j : ℚ) + 1 ≤ k := by exact_mod_cast hlt
    have hq : q = j + 1 / 2 := by linarith
    have hj0 : 0 ≤ j := by
      by_contra hneg
      have : (j : ℚ) ≤ -1 := by exact_mod_cast (show j ≤ -1 by omega)
      linarith
    obtain ⟨n, rfl⟩ := Int.eq_ofNat_of_zero_le hj0
    rw [hq, Int.cast_natCast, wholeNear_tie] at hk
    split at hk <;> omega
  · have hle : (k : ℚ) + 1 ≤ j := by exact_mod_cast hlt
    have hq : q = k + 1 / 2 := by linarith
    rw [hq, wholeNear_tie] at hk
    split at hk <;> omega

/-! ## Binary64 values -/

namespace Magnitude

/-- The rank of a value inside a binade. -/
theorem rankNear_eq {q : ℚ} {s : ℕ} (h0 : 0 ≤ q) (hlo : s = 0 ∨ 2 ^ (52 + ((s : ℤ) - 1074)) ≤ q)
    (hhi : q ≤ 2 ^ (53 + ((s : ℤ) - 1074))) :
    rankNear q = s * 2 ^ 52 + wholeNear (q / 2 ^ ((s : ℤ) - 1074)) := by
  have hp : (0 : ℚ) < 2 ^ ((s : ℤ) - 1074) := by positivity
  have h1 : wholeNear (q / 2 ^ ((s : ℤ) - 1074)) ≤ 2 ^ 53 := by
    refine wholeNear_le (by positivity) ?_
    rw [div_le_iff₀ hp]
    refine hhi.trans_eq ?_
    rw [zpow_add₀ two_ne_zero]
    norm_num
  have h2 : s = 0 ∨ 2 ^ 52 ≤ wholeNear (q / 2 ^ ((s : ℤ) - 1074)) := by
    apply hlo.imp_right
    intro h
    refine le_wholeNear ?_
    rw [le_div_iff₀ hp]
    refine Eq.trans_le ?_ h
    rw [zpow_add₀ two_ne_zero]
    norm_num
  apply valueAt_strictMono.injective
  rw [valueAt_rankNear (by omega) h0 (hlo.imp_left (by omega)) hhi]
  conv_rhs => rw [valueAt, unitsAt_add h2 h1]
  rw [two_zpow_sub]
  push_cast
  ring

theorem significand_mod_two (m : Magnitude) : m.significand % 2 = m.rank % 2 := by
  unfold significand shift
  omega

end Magnitude

namespace Binary64

open Magnitude

variable {q y : ℚ}

/-- The other number of a tie is a multiple of the spacing at `q`. -/
theorem exists_multiple_of_tie {t : ℤ} (ht : -1074 ≤ t) (h0 : 0 ≤ q)
    (hlo : t = -1074 ∨ 2 ^ (52 + t) ≤ q) (hhi : q ≤ 2 ^ (53 + t)) (hy : rounded y = y)
    (h : |y - q| ≤ |rounded q - q|) : ∃ k : ℤ, y = k * 2 ^ t := by
  have grid := abs_rounded_sub_le_multiple ht h0 hlo hhi
  rcases lt_or_ge y 0 with hneg | hpos
  · -- zero would be nearer
    have hz := h.trans (grid 0)
    rw [Int.cast_zero, zero_mul, zero_sub, abs_neg, abs_of_nonneg h0,
      abs_of_nonpos (by linarith)] at hz
    linarith
  · rw [rounded_of_nonneg hpos] at hy
    rcases exists_multiple_or_valueAt_le (rankNear y) t with ⟨k, hk⟩ | ⟨hlt, hle⟩
    · exact ⟨k, by rw [← hk, hy]⟩
    · -- the start of the binade is at least as near
      have hq : 2 ^ (52 + t) ≤ q := hlo.resolve_left (by omega)
      have hs := h.trans (grid (2 ^ 52))
      have e : (((2 : ℤ) ^ 52 : ℤ) : ℚ) * 2 ^ t = 2 ^ (52 + t) := by
        rw [zpow_add₀ two_ne_zero]
        norm_num
      rw [hy] at hle
      rw [e, abs_of_nonpos (by linarith), abs_of_nonpos (by linarith)] at hs
      exact ⟨2 ^ 52, by rw [e]; linarith⟩

/-- Where another binary64 value is as near as the rounding, the rounding has an even rank. -/
theorem even_rankNear_of_tie (hy : rounded y = y) (hne : y ≠ rounded q)
    (h : |y - q| ≤ |rounded q - q|) : rankNear q % 2 = 0 := by
  induction q using forall_of_nonneg_of_neg generalizing y with
  | hn q ih =>
    rw [rankNear_neg]
    refine ih (y := -y) (by rw [rounded_neg, hy]) ?_ ?_
    · intro e
      rw [rounded_neg, ← e, neg_neg] at hne
      exact hne rfl
    · rw [← abs_neg, ← abs_neg (rounded q - q)]
      rw [rounded_neg] at h
      convert h using 2 <;> ring
  | h0 q h0 =>
    obtain ⟨t, ht, hlo, hhi⟩ := exists_binade_of_nonneg h0
    obtain ⟨k, rfl⟩ := exists_multiple_of_tie ht h0 hlo hhi hy h
    obtain ⟨s, rfl⟩ : ∃ s : ℕ, t = s - 1074 := ⟨(t + 1074).toNat, by omega⟩
    have hp : (0 : ℚ) < 2 ^ ((s : ℤ) - 1074) := by positivity
    rw [rounded_of_binade ht h0 hlo hhi] at h hne
    rw [abs_mul_sub hp, abs_mul_sub hp, mul_le_mul_iff_of_pos_right hp] at h
    have even := even_wholeNear_of_tie (j := k) (div_nonneg h0 hp.le) ?_ h
    · rw [rankNear_eq h0 (hlo.imp_left (by omega)) hhi]
      omega
    · intro e
      exact hne (by rw [e, Int.cast_natCast])

/-! ## The nearest number -/

/-- A finite number that none is nearer to `q` than, with an even significand unless no other value
is as near. -/
def IsNearest (x : Binary64) (q : ℚ) : Prop :=
  ∃ s m, x = finite s m ∧
    (∀ y : Binary64, y.isFinite = true → |x.value - q| ≤ |y.value - q|) ∧
    (m.significand % 2 = 0 ∨
      ∀ y : Binary64, y.isFinite = true → |y.value - q| = |x.value - q| → y.value = x.value)

theorem isNearest_ofRat (zeroSign : Bool) (h : Fits q) : IsNearest (ofRat zeroSign q) q := by
  have hv := (denotes_ofRat zeroSign h).2
  refine ⟨_, _, ofRat_eq zeroSign h, ?_, ?_⟩
  · intro y hy
    rw [hv]
    exact abs_rounded_sub_le_abs (denotes_value hy).rounded_eq q
  · rw [significand_mod_two, or_iff_not_imp_left]
    intro odd y hy tie
    rw [hv] at tie ⊢
    by_contra hne
    exact odd (even_rankNear_of_tie (denotes_value hy).rounded_eq hne tie.le)

end Binary64

end Coinage
