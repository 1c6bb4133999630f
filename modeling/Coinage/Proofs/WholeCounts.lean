import Coinage.Proofs.Products

/-!
# Whole numbers of Hao

A whole number is its own rounding, and up to `2^53` it is a binary64 number. But the half that is
added in front of the cut is not: from `2^52` on the sum with it is a tie, and that of an odd number
goes to the even number behind it. So an amount comes back from its number of Hao, and from a
multiplication by one, unless it is odd and above `2^52` on either side of zero.

Results.

* `roundsTooFar_intCast_iff`: the whole numbers that are rounded too far.
* `haoNear_intCast`: what a whole number ends in.
* `wholeCount_unchanged_iff`: the way to a number of Hao and back, and the multiplication by one.
-/
namespace Coinage.Amount

open Binary64

/-! ## Rounding whole numbers -/

theorem halfAway_intCast (n : ℤ) : halfAway n = n := by
  obtain ⟨m, rfl | rfl⟩ := n.eq_nat_or_neg
  · rw [Int.cast_natCast, halfAway_of_nonneg (Nat.cast_nonneg m), floor_natCast_add_half]
  · rw [Int.cast_neg, Int.cast_natCast, halfAway_neg, halfAway_of_nonneg (Nat.cast_nonneg m),
      floor_natCast_add_half]

/-- Of the whole numbers up to `2^53` the odd ones above `2^52` are rounded too far. -/
theorem roundsTooFar_intCast_iff {n : ℤ} (h : |n| ≤ 2 ^ 53) :
    RoundsTooFar n ↔ n % 2 = 1 ∧ 2 ^ 52 < |n| := by
  have habs : |(n : ℚ)| = (n.natAbs : ℕ) := by rw [Nat.cast_natAbs, Int.cast_abs]
  rw [Int.abs_eq_natAbs] at h ⊢
  unfold RoundsTooFar
  rw [habs]
  constructor
  · rintro (hhalf | ⟨m, hm, hodd, hlo, -⟩)
    · -- no whole number lies just below one half
      have h1 : (n.natAbs : ℚ) < 1 := by
        rw [hhalf]
        norm_num
      have h0 : n.natAbs = 0 := by
        have : n.natAbs < 1 := by exact_mod_cast h1
        omega
      rw [h0] at hhalf
      norm_num at hhalf
    · have hm' : n.natAbs = m := by exact_mod_cast hm
      omega
  · rintro ⟨hodd, hlo⟩
    exact .inr ⟨n.natAbs, rfl, by omega, by omega, by omega⟩

theorem sign_intCast (n : ℤ) : (SignType.sign (n : ℚ) : ℤ) = n.sign := by
  rcases lt_trichotomy n 0 with h | rfl | h
  · rw [sign_neg (Int.cast_lt_zero.mpr h), Int.sign_eq_neg_one_of_neg h]
    rfl
  · simp
  · rw [sign_pos (Int.cast_pos.mpr h), Int.sign_eq_one_of_pos h]
    rfl

theorem haoNear_intCast {n : ℤ} (h : |n| ≤ 2 ^ 53) :
    haoNear n = if n % 2 = 1 ∧ 2 ^ 52 < |n| then n + n.sign else n := by
  have far := roundsTooFar_intCast_iff h
  have kept := rounded_intCast h
  have range := abs_le.mp h
  rw [haoNear, kept]
  split
  · next hodd =>
    have hs := Int.sign_trichotomy n
    rw [wholeHao_of_roundsTooFar (far.mpr hodd), halfAway_intCast, sign_intCast]
    omega
  · next heven =>
    rw [wholeHao_of_not_roundsTooFar kept (mt far.mp heven), halfAway_intCast]
    omega

/-! ## To a number of Hao and back -/

theorem toUnit_hao {a : Amount} (h : |a.hao| ≤ 2 ^ 53) : a.toUnit .hao = .ofInt a.hao := by
  have e := a.toUnit_eq (u := .hao) (k := 0) rfl (by omega)
  rwa [rounded_intCast h, Nat.pow_zero, Nat.cast_one, div_one] at e

theorem exists_ofNumber_toUnit_hao {a : Amount} (h : |a.hao| ≤ 2 ^ 53) :
    ∃ r, ofNumber .hao (a.toUnit .hao) = .silent (.ok r) ∧ r.hao = haoNear a.hao := by
  have number := denotes_ofInt_of_abs_le h
  obtain ⟨r, hr, e⟩ := exists_ofNumber .hao number.1
  rw [number.2, Basis.haoPerUnit, mul_one] at e
  exact ⟨r, toUnit_hao h ▸ hr, e⟩

/-- The number of Hao of an amount, entered again, and the amount times one are the same amount. Up
to `2^53` this is the one from the start unless that is odd and above `2^52`; then it is the one
behind it. -/
theorem wholeCount_unchanged_iff (a : Amount) (h : |a.hao| ≤ 2 ^ 53) :
    ∃ r, ofNumber .hao (a.toUnit .hao) = .silent (.ok r) ∧ a.scale (.ofInt 1) = r ∧
      (r = a ↔ ¬(a.hao % 2 = 1 ∧ 2 ^ 52 < |a.hao|)) ∧
      (a.hao % 2 = 1 → 2 ^ 52 < |a.hao| → r.hao = a.hao + a.hao.sign) := by
  obtain ⟨r, hr, e⟩ := exists_ofNumber_toUnit_hao h
  have one := a.hao_scale_one
  rw [rounded_intCast h, ← e, hao_inj] at one
  rw [haoNear_intCast h] at e
  refine ⟨r, hr, one, ?_, fun hodd habove => ?_⟩
  · rw [← hao_inj, e]
    by_cases far : a.hao % 2 = 1 ∧ 2 ^ 52 < |a.hao|
    · have hs : a.hao.sign ≠ 0 := Int.sign_eq_zero_iff_zero.not.mpr (by omega)
      rw [if_pos far]
      exact iff_of_false (by omega) (not_not.mpr far)
    · rw [if_neg far]
      exact iff_of_true rfl far
  · rwa [if_pos ⟨hodd, habove⟩] at e

/-- The greatest whole number in question is even and comes back. -/
theorem wholeCount_unchanged_two_pow :
    ofNumber .hao (toUnit ⟨2 ^ 53, by decide, by decide⟩ .hao) =
        .silent (.ok ⟨2 ^ 53, by decide, by decide⟩) ∧
      scale ⟨2 ^ 53, by decide, by decide⟩ (.ofInt 1) = ⟨2 ^ 53, by decide, by decide⟩ := by
  obtain ⟨r, hr, one, same, -⟩ :=
    wholeCount_unchanged_iff ⟨2 ^ 53, by decide, by decide⟩ (by decide)
  rw [same.mpr (by decide)] at hr one
  exact ⟨hr, one⟩

/-- Not every whole number of Hao that a binary64 number holds is kept: `2^52 + 1` is not. -/
theorem wholeCount_fails :
    ¬∀ a : Amount, |a.hao| ≤ 2 ^ 53 → ofNumber .hao (a.toUnit .hao) = .silent (.ok a) ∧
      a.scale (.ofInt 1) = a := by
  intro h
  obtain ⟨-, one⟩ := h ⟨2 ^ 52 + 1, by decide, by decide⟩ (by decide)
  rw [← hao_inj, hao_scale_one, rounded_intCast (by decide), haoNear_intCast (by decide)] at one
  exact absurd one (by decide)

end Coinage.Amount
