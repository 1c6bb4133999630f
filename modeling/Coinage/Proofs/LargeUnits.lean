import Coinage.Proofs.PowersOfTen

/-!
# Denominations from the Hao up

A power of ten with an exponent that is not negative is at least one, also where its products have
been rounded, and infinite from some exponent on. So in a denomination from the Hao up every amount
is a finite number, which may be a zero with a sign.

Results.

* `atLeastOne_pow_ten`: such a power of ten is at least one or infinite.
* `toUnit_isFinite`: in such a denomination the number is finite.
-/
namespace Coinage

namespace Binary64

open Magnitude

/-- Not below one; infinity counts. -/
def AtLeastOne (x : Binary64) : Prop :=
  x = infinite false ∨ ∃ m, x = finite false m ∧ 1 ≤ m.value

theorem atLeastOne_ofRat (zeroSign : Bool) {q : ℚ} (h : 1 ≤ q) :
    AtLeastOne (ofRat zeroSign q) := by
  have h0 : 0 < q := by linarith
  by_cases hf : Fits q
  · right
    refine ⟨hf.magnitude, ?_, ?_⟩
    · rw [ofRat_eq zeroSign hf]
      simp [h0.ne', h0.not_gt]
    · rw [hf.value_magnitude, ← rounded_of_nonneg h0.le]
      exact one_le_rounded h
  · left
    rw [ofRat_of_not_fits zeroSign hf]
    simp [h0.ne', h0.not_gt]

theorem rank_ne_zero_of_one_le {m : Magnitude} (h : 1 ≤ m.value) : m.rank ≠ 0 := by
  intro h0
  rw [value_eq, h0, valueAt_zero] at h
  linarith

theorem denotes_finite (m : Magnitude) : Denotes (finite false m) m.value := ⟨rfl, rfl⟩

theorem AtLeastOne.mul {x y : Binary64} (hx : AtLeastOne x) (hy : AtLeastOne y) :
    AtLeastOne (x * y) := by
  obtain rfl | ⟨m, rfl, hm⟩ := hx <;> obtain rfl | ⟨n, rfl, hn⟩ := hy
  · exact .inl rfl
  · exact .inl (if_neg (rank_ne_zero_of_one_le hn))
  · exact .inl (if_neg (rank_ne_zero_of_one_le hm))
  · obtain ⟨zeroSign, e⟩ := (denotes_finite m).exists_mul_eq (denotes_finite n)
    rw [e]
    exact atLeastOne_ofRat zeroSign (one_le_mul_of_one_le_of_one_le hm hn)

theorem atLeastOne_ofInt {n : ℕ} (h : 1 ≤ n) : AtLeastOne (ofInt n) := by
  refine atLeastOne_ofRat false ?_
  exact_mod_cast h

theorem atLeastOne_pow_ten (n : ℕ) : AtLeastOne (pow (ofInt 10) n) :=
  powFrom_induction (P := fun _ _ x => AtLeastOne x) (c := 0) (b := 0) (i := 0) (j := 1)
    AtLeastOne.mul n (atLeastOne_ofInt (n := 1) le_rfl) (atLeastOne_ofInt (n := 10) (by omega))

/-- A quotient by a number that is at least one does not overflow. -/
theorem isFinite_div {x y : Binary64} {p : ℚ} (hx : Denotes x p) (hp : |p| ≤ 2 ^ 63)
    (hy : AtLeastOne y) : (x / y).isFinite = true := by
  obtain rfl | ⟨m, rfl, hm⟩ := hy
  · obtain ⟨s, n, rfl, -⟩ := hx.exists_finite
    rfl
  · have hf : Fits (p / m.value) := by
      refine fits_of_abs_le 63 ?_ (by omega)
      rw [abs_div, abs_of_nonneg (a := m.value) (by linarith)]
      exact (div_le_self (abs_nonneg p) hm).trans hp
    exact (hx.div (denotes_finite m) (by linarith) hf).1

end Binary64

namespace Amount

open Binary64

theorem toUnit_isFinite (a : Amount) {u : Denomination} (hu : -8 ≤ u.exponent.value) :
    (a.toUnit u).isFinite = true := by
  obtain ⟨n, hn⟩ := Int.eq_ofNat_of_zero_le (show 0 ≤ u.exponent.value + 8 by omega)
  have hy : AtLeastOne (haoPer u) := by
    unfold haoPer baseExponent
    rw [hn]
    exact atLeastOne_pow_ten n
  exact isFinite_div (denotes_ofInt a.fits_hao) a.abs_rounded_hao_le hy

end Amount

end Coinage
