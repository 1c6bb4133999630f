import Coinage.Proofs.EntryRange
import Coinage.Proofs.HaoTexts
import Coinage.Proofs.Proportions

/-!
# Amounts entered again

An amount shown in Hao and entered again as Hao goes through the nearest binary64 number and through
the half that is added in front of the cut. Neither is without effect: the number may be up to half
of the spacing away, and an odd number above `2^52` comes out one further. But what comes out is
settled. It is a binary64 number that the half leaves alone, or the greatest amount, which is no
binary64 number and comes back only because the range ends there.

Results.

* `settled_haoNear`, `haoNear_of_settled`: the numbers of Hao that come out, and come back.
* `abs_haoNear_sub_le_spacing`: how far an amount can move.
* `reentry_settles`: entering again once is as good as twice, and keeps order.
-/
namespace Coinage.Amount

open Binary64

/-- The amount that the number of Hao of an amount is entered as. -/
def reentered (a : Amount) : Amount := nearest (a.toUnit .hao)

theorem ofNumber_toUnit_hao (a : Amount) :
    ofNumber .hao (a.toUnit .hao) = .silent (.ok a.reentered) :=
  if_pos a.denotes_toUnit_hao.1

theorem hao_reentered (a : Amount) : a.reentered.hao = haoNear a.hao :=
  hao_nearest a.denotes_toUnit_hao

/-! ## Settled numbers -/

/-- A binary64 number that the half leaves alone, or the end of the range that is none. -/
def Settled (n : ℤ) : Prop := n = 2 ^ 63 - 1 ∨ rounded n = n ∧ ¬RoundsTooFar n

/-- Numbers that are rounded too far are far below the ends of the range. -/
theorem abs_lt_of_roundsTooFar {n : ℤ} (h : RoundsTooFar n) : |n| < 2 ^ 53 := by
  simpa only [halfAway_intCast] using abs_halfAway_le h

theorem settled_of_even {n : ℤ} (h : |n| ≤ 2 ^ 53) (heven : n % 2 = 0) : Settled n := by
  refine .inr ⟨rounded_intCast h, ?_⟩
  rw [roundsTooFar_intCast_iff h]
  omega

/-- A rounded number of Hao that is not rounded too far is brought into the range as it is. -/
theorem haoNear_of_rounded {n w : ℤ} (hw : (w : ℚ) = rounded n) (h : ¬RoundsTooFar w) :
    haoNear n = max (-2 ^ 63) (min w (2 ^ 63 - 1)) := by
  have kept : rounded w = w := by rw [hw, rounded_rounded]
  rw [haoNear, ← hw, wholeHao_of_not_roundsTooFar kept h, halfAway_intCast]

theorem haoNear_greatest : haoNear (2 ^ 63 - 1 : ℤ) = 2 ^ 63 - 1 := by
  have e : ((2 ^ 63 - 1 : ℤ) : ℚ) = 2 ^ 63 - 1 := by norm_num
  rw [haoNear, e, rounded_end, wholeHao_two_pow (by omega)]
  decide

/-- What is settled comes back. -/
theorem haoNear_of_settled {a : Amount} (h : Settled a.hao) : haoNear a.hao = a.hao := by
  have lower := a.lower
  have upper := a.upper
  rcases h with top | ⟨kept, notFar⟩
  · rw [top, haoNear_greatest]
  · rw [haoNear_of_rounded kept.symm notFar]
    omega

/-- What comes out is settled. -/
theorem settled_haoNear (a : Amount) : Settled (haoNear a.hao) := by
  obtain ⟨w, hw⟩ := exists_intCast_eq_rounded a.hao
  have kept : rounded w = w := by rw [hw, rounded_rounded]
  by_cases far : RoundsTooFar w
  · -- one further than an odd number is even
    have small := abs_lt_of_roundsTooFar far
    have odd := ((roundsTooFar_intCast_iff small.le).mp far).1
    have range := abs_lt.mp small
    have sign := Int.sign_trichotomy w
    have nonzero : w.sign ≠ 0 := Int.sign_eq_zero_iff_zero.not.mpr (by omega)
    have e : haoNear a.hao = w + w.sign := by
      rw [haoNear, ← hw, wholeHao_of_roundsTooFar far, halfAway_intCast, sign_intCast]
      omega
    rw [e]
    exact settled_of_even (abs_le.mpr (by omega)) (by omega)
  · have bound : |(w : ℚ)| ≤ 2 ^ 63 := hw ▸ a.abs_rounded_hao_le
    have range := abs_le.mp (by exact_mod_cast bound : |w| ≤ 2 ^ 63)
    rw [haoNear_of_rounded hw far]
    by_cases top : w = 2 ^ 63
    · rw [top]
      exact .inl (by decide)
    · have inside : max (-2 ^ 63) (min w (2 ^ 63 - 1)) = w := by omega
      rw [inside]
      exact .inr ⟨kept, far⟩

/-! ## The drift -/

/-- Just inside the ends of the range the spacing is `2^10`, and no amount moves by more than half
of that. -/
theorem abs_haoNear_sub_le_spacing (a : Amount) : |haoNear a.hao - a.hao| ≤ 512 := by
  by_cases small : |a.hao| ≤ 2 ^ 53
  · have sign := Int.sign_trichotomy a.hao
    rw [haoNear_intCast small, abs_le]
    split <;> omega
  · obtain ⟨w, hw⟩ := exists_intCast_eq_rounded a.hao
    have big : (2 : ℚ) ^ 53 ≤ |(a.hao : ℚ)| := by exact_mod_cast (not_le.mp small).le
    have big' := le_abs_rounded (rounded_two_pow 53) big
    rw [← hw] at big'
    have notFar : ¬RoundsTooFar w := fun far =>
      (abs_lt_of_roundsTooFar far).not_ge (by exact_mod_cast big')
    have near := abs_rounded_sub_le (q := a.hao) (t := 10) (by omega) a.abs_hao_le
    rw [← hw] at near
    norm_num at near
    rw [haoNear_of_rounded hw notFar]
    exact (abs_clamp_sub_le a w).trans (by exact_mod_cast near)

/-! ## Entering again -/

/-- The number of Hao of an amount is always entered. The amount that comes out comes back from then
on, lies within half of the greatest spacing, and the order of amounts is kept. -/
theorem reentry_settles (a b : Amount) :
    ofNumber .hao (a.toUnit .hao) = .silent (.ok a.reentered) ∧
      a.reentered.reentered = a.reentered ∧
      |a.reentered.hao - a.hao| ≤ 512 ∧
      (a ≤ b → a.reentered ≤ b.reentered) := by
  refine ⟨a.ofNumber_toUnit_hao, ?_, ?_, fun h => ?_⟩
  · have settled := settled_haoNear a
    rw [← hao_reentered] at settled
    rw [← hao_inj, hao_reentered, haoNear_of_settled settled]
  · rw [hao_reentered]
    exact abs_haoNear_sub_le_spacing a
  · rw [le_iff_hao_le, hao_reentered, hao_reentered]
    exact haoNear_mono (Int.cast_le.mpr h)

/-- The odd number below `2^53` moves to it and stays, the greatest amount stays where it is, and
the order of the two is kept. -/
theorem reentry_settles_ends :
    (⟨2 ^ 53 - 1, by decide, by decide⟩ : Amount) ≤ greatest ∧
      reentered ⟨2 ^ 53 - 1, by decide, by decide⟩ = ⟨2 ^ 53, by decide, by decide⟩ ∧
      reentered ⟨2 ^ 53, by decide, by decide⟩ = ⟨2 ^ 53, by decide, by decide⟩ ∧
      greatest.reentered = greatest ∧
      (⟨2 ^ 53, by decide, by decide⟩ : Amount) ≤ greatest.reentered := by
  have le : (⟨2 ^ 53 - 1, by decide, by decide⟩ : Amount) ≤ greatest := le_greatest _
  have moved : reentered ⟨2 ^ 53 - 1, by decide, by decide⟩ = ⟨2 ^ 53, by decide, by decide⟩ := by
    decide +kernel
  have stays : greatest.reentered = greatest := by decide +kernel
  obtain ⟨-, again, -, ordered⟩ := reentry_settles ⟨2 ^ 53 - 1, by decide, by decide⟩ greatest
  rw [moved] at again ordered
  exact ⟨le, moved, again, stays, ordered le⟩

end Coinage.Amount
