import Coinage.Binary64.Basic
import Coinage.Proofs.Ranks
import Mathlib.Algebra.Order.Archimedean.Basic
import Mathlib.Algebra.Order.Field.Power
import Mathlib.Data.Int.Log
import Mathlib.Data.Rat.Floor

/-!
# Rounding as a function on the rational numbers

`rounded q` is the value of the binary64 number nearest to `q`, with binades that go on without
end. It has no sign of zero and no overflow, so the facts that the analysis of a computation needs
hold of all rational numbers: it is odd, it keeps order, it keeps what is a binary64 value, and it
is off by at most half the spacing.

Results.

* `rounded_of_binade`: rounding to a whole multiple of the spacing.
* `rounded_mono`, `rounded_neg`, `rounded_eq_self`.
* `abs_rounded_sub_le`: the absolute error below a power of two.
* `abs_rounded_sub_le_div`: the relative error, from the least normal number on.
* `abs_rounded_sub_le_abs`: no binary64 value is nearer.
-/
namespace Coinage

namespace Magnitude

/-- The value at a rank, the binades going on without end. -/
def valueAt (r : ℕ) : ℚ := unitsAt r / unitsInOne

theorem unitsInOne_pos : 0 < unitsInOne := by unfold unitsInOne; positivity

theorem unitsInOne_cast : (unitsInOne : ℚ) = 2 ^ (1074 : ℤ) := by
  simp only [unitsInOne, Nat.cast_pow, Nat.cast_ofNat, zpow_ofNat]

theorem value_eq (m : Magnitude) : m.value = valueAt m.rank := by
  rw [value, Rat.mkRat_eq_div, Int.cast_natCast]; rfl

theorem valueAt_strictMono : StrictMono valueAt := fun _ _ h =>
  div_lt_div_of_pos_right (Nat.cast_lt.mpr (unitsAt_strictMono h)) (Nat.cast_pos.mpr unitsInOne_pos)

theorem valueAt_zero : valueAt 0 = 0 := by
  rw [valueAt, show unitsAt 0 = 0 from rfl, Nat.cast_zero, zero_div]

theorem valueAt_nonneg (r : ℕ) : 0 ≤ valueAt r :=
  valueAt_zero ▸ valueAt_strictMono.monotone (Nat.zero_le r)

/-- The rank nearest to `|q|`. -/
def rankNear (q : ℚ) : ℕ := nearestRank (q.num.natAbs * unitsInOne) q.den

theorem rankNear_div (n : ℕ) {d : ℕ} (hd : 0 < d) :
    rankNear (n / d) = nearestRank (n * unitsInOne) d := by
  obtain ⟨c, hc, hn, hden⟩ := exists_common_factor n hd
  calc rankNear (n / d)
      = nearestRank (((n : ℚ) / d).num.natAbs * unitsInOne * c) (((n : ℚ) / d).den * c) :=
        (nearestRank_mul_mul_right _ hc).symm
    _ = nearestRank (n * unitsInOne) d := by rw [Nat.mul_right_comm, ← hn, ← hden]

theorem rankNear_neg (q : ℚ) : rankNear (-q) = rankNear q := by simp [rankNear]

theorem rankNear_mono {p q : ℚ} (hp : 0 ≤ p) (h : p ≤ q) : rankNear p ≤ rankNear q := by
  obtain ⟨n, d, hd, rfl⟩ := exists_eq_div hp
  obtain ⟨n', d', hd', rfl⟩ := exists_eq_div (hp.trans h)
  rw [rankNear_div n hd, rankNear_div n' hd']
  rw [div_le_div_iff₀ (by positivity) (by positivity)] at h
  apply nearestRank_mono hd hd'
  rw [Nat.mul_right_comm, Nat.mul_right_comm n']
  exact Nat.mul_le_mul_right _ (by exact_mod_cast h)

theorem rankNear_valueAt (r : ℕ) : rankNear (valueAt r) = r := by
  rw [valueAt, rankNear_div _ unitsInOne_pos]
  exact nearestRank_unitsAt r unitsInOne_pos

/-- A power of two at a shifted exponent, counted in units. -/
theorem two_zpow_shift (a s : ℕ) :
    (2 : ℚ) ^ ((a : ℤ) + ((s : ℤ) - 1074)) = (2 : ℚ) ^ (a + s) / unitsInOne := by
  rw [← add_sub_assoc, zpow_sub₀ two_ne_zero, ← Nat.cast_add, zpow_natCast, unitsInOne_cast]

theorem two_zpow_sub (s : ℕ) : (2 : ℚ) ^ ((s : ℤ) - 1074) = (2 : ℚ) ^ s / unitsInOne := by
  have e := two_zpow_shift 0 s
  rwa [Nat.cast_zero, zero_add, Nat.zero_add] at e

/-- A value inside a binade is rounded to a whole multiple of its spacing `2^t`. -/
theorem valueAt_rankNear {q : ℚ} {t : ℤ} (ht : -1074 ≤ t) (h0 : 0 ≤ q)
    (hlo : t = -1074 ∨ 2 ^ (52 + t) ≤ q) (hhi : q ≤ 2 ^ (53 + t)) :
    valueAt (rankNear q) = wholeNear (q / 2 ^ t) * 2 ^ t := by
  obtain ⟨n, d, hd, rfl⟩ := exists_eq_div h0
  obtain ⟨s, rfl⟩ : ∃ s : ℕ, t = s - 1074 := ⟨(t + 1074).toNat, by omega⟩
  have hU : (0 : ℚ) < unitsInOne := Nat.cast_pos.mpr unitsInOne_pos
  have hd' : (0 : ℚ) < d := by exact_mod_cast hd
  have hlo' : s = 0 ∨ d * 2 ^ (52 + s) ≤ n * unitsInOne := by
    apply hlo.imp (by omega)
    intro h
    have e52 := two_zpow_shift 52 s
    rw [Nat.cast_ofNat] at e52
    rw [e52, div_le_div_iff₀ hU hd'] at h
    rw [Nat.mul_comm d]
    exact_mod_cast h
  have hhi' : n * unitsInOne ≤ d * 2 ^ (53 + s) := by
    have e53 := two_zpow_shift 53 s
    rw [Nat.cast_ofNat] at e53
    rw [e53, div_le_div_iff₀ hd' hU] at hhi
    rw [Nat.mul_comm d]
    exact_mod_cast hhi
  have hq : (n / d : ℚ) / 2 ^ ((s : ℤ) - 1074) =
      ((n * unitsInOne : ℕ) : ℚ) / ((d * 2 ^ s : ℕ) : ℚ) := by
    rw [two_zpow_sub]; push_cast; field_simp
  rw [hq, wholeNear_div _ (Nat.mul_pos hd (Nat.two_pow_pos s)), rankNear_div n hd, valueAt,
    unitsAt_nearestRank hd hlo' hhi', two_zpow_sub]
  push_cast
  ring

/-- The value at a rank is a whole number of its spacing, and at least `2^52` of it where the
spacing is not the least one. -/
theorem exists_normal (r : ℕ) : ∃ k : ℕ, ∃ t : ℤ, -1074 ≤ t ∧ (t = -1074 ∨ 2 ^ 52 ≤ k) ∧
    k < 2 ^ 53 ∧ valueAt r = k * 2 ^ t := by
  obtain ⟨s, k, rfl, hk, hs⟩ := exists_shift r
  refine ⟨k, s - 1074, by omega, by omega, hk, ?_⟩
  rw [valueAt, unitsAt_add hs hk.le, two_zpow_sub]
  push_cast
  ring

theorem exists_valueAt_eq (r : ℕ) :
    ∃ k : ℕ, ∃ t : ℤ, -1074 ≤ t ∧ k < 2 ^ 53 ∧ valueAt r = k * 2 ^ t := by
  obtain ⟨k, t, ht, -, hk, hv⟩ := exists_normal r
  exact ⟨k, t, ht, hk, hv⟩

/-- Below a power of two, the binade of a number or the lowest spacing. -/
theorem exists_binade {q : ℚ} {t : ℤ} (ht : -1074 ≤ t) (hq : q ≤ 2 ^ (53 + t)) :
    ∃ t', -1074 ≤ t' ∧ t' ≤ t ∧ (t' = -1074 ∨ 2 ^ (52 + t') ≤ q) ∧ q ≤ 2 ^ (53 + t') := by
  induction t, ht using Int.leInduction with
  | base => exact ⟨-1074, le_rfl, le_rfl, .inl rfl, hq⟩
  | succ t ht ih =>
    rcases le_or_gt (2 ^ (53 + t)) q with h | h
    · refine ⟨t + 1, by omega, le_rfl, .inr ?_, hq⟩
      rwa [show 52 + (t + 1) = 53 + t by ring]
    · obtain ⟨t', h1, h2, h3⟩ := ih h.le
      exact ⟨t', h1, by omega, h3⟩

/-- Every number not below zero lies in a binade or on the lowest spacing. -/
theorem exists_binade_of_nonneg {q : ℚ} (h : 0 ≤ q) :
    ∃ t : ℤ, -1074 ≤ t ∧ (t = -1074 ∨ 2 ^ (52 + t) ≤ q) ∧ q ≤ 2 ^ (53 + t) := by
  obtain ⟨i, hi⟩ := pow_unbounded_of_one_lt q (one_lt_two (α := ℚ))
  have htop : q ≤ 2 ^ (53 + (i : ℤ)) := by
    rw [zpow_add₀ two_ne_zero, zpow_natCast]
    linarith [show (2 : ℚ) ^ i ≤ 2 ^ (53 : ℤ) * 2 ^ i from
      le_mul_of_one_le_left (by positivity) (by norm_num)]
  obtain ⟨t, ht, -, hlo, hhi⟩ := exists_binade (t := i) (by omega) htop
  exact ⟨t, ht, hlo, hhi⟩

end Magnitude

namespace Binary64

open Magnitude

/-- The value of the binary64 number nearest to `q`, the binades going on without end. -/
def rounded (q : ℚ) : ℚ := if q < 0 then -valueAt (rankNear q) else valueAt (rankNear q)

theorem rounded_of_nonneg {q : ℚ} (h : 0 ≤ q) : rounded q = valueAt (rankNear q) :=
  if_neg h.not_gt

theorem rounded_of_neg {q : ℚ} (h : q < 0) : rounded q = -valueAt (rankNear q) := if_pos h

theorem rounded_valueAt (r : ℕ) : rounded (valueAt r) = valueAt r := by
  rw [rounded_of_nonneg (valueAt_nonneg r), rankNear_valueAt]

@[simp] theorem rounded_zero : rounded 0 = 0 := by
  have h := rounded_valueAt 0
  rwa [valueAt_zero] at h

@[simp] theorem rounded_neg (q : ℚ) : rounded (-q) = -rounded q := by
  rcases lt_trichotomy q 0 with h | rfl | h
  · rw [rounded_of_nonneg (by linarith), rounded_of_neg h, rankNear_neg, neg_neg]
  · simp
  · rw [rounded_of_neg (by linarith), rounded_of_nonneg h.le, rankNear_neg]

theorem rounded_nonneg {q : ℚ} (h : 0 ≤ q) : 0 ≤ rounded q :=
  rounded_of_nonneg h ▸ valueAt_nonneg _

theorem rounded_mono : Monotone rounded := by
  intro p q h
  rcases lt_or_ge q 0 with hq | hq
  · rw [rounded_of_neg hq, rounded_of_neg (h.trans_lt hq), neg_le_neg_iff, ← rankNear_neg q,
      ← rankNear_neg p]
    exact valueAt_strictMono.monotone (rankNear_mono (by linarith) (by linarith))
  · rcases lt_or_ge p 0 with hp | hp
    · rw [rounded_of_neg hp]
      linarith [valueAt_nonneg (rankNear p), rounded_nonneg hq]
    · rw [rounded_of_nonneg hp, rounded_of_nonneg hq]
      exact valueAt_strictMono.monotone (rankNear_mono hp h)

/-- What holds of all numbers not below zero and of the opposites of such holds of all. -/
theorem forall_of_nonneg_of_neg {P : ℚ → Prop} (h0 : ∀ q, 0 ≤ q → P q) (hn : ∀ q, P q → P (-q))
    (q : ℚ) : P q := by
  rcases le_total 0 q with h | h
  · exact h0 q h
  · exact neg_neg q ▸ hn _ (h0 (-q) (by linarith))

/-! ## What is kept -/

/-- A whole number of `2^t` with a significand of 53 bits is a binary64 value. -/
theorem rounded_eq_self {q : ℚ} (k t : ℤ) (hq : q = k * 2 ^ t) (hk : |k| ≤ 2 ^ 53)
    (ht : -1074 ≤ t) : rounded q = q := by
  obtain ⟨s, rfl⟩ : ∃ s : ℕ, t = s - 1074 := ⟨(t + 1074).toNat, by omega⟩
  have key : ∀ j : ℕ, j ≤ 2 ^ 53 →
      rounded (j * 2 ^ ((s : ℤ) - 1074)) = j * 2 ^ ((s : ℤ) - 1074) := by
    intro j hj
    obtain ⟨r, hr⟩ := exists_unitsAt_eq s hj
    have hv : valueAt r = j * 2 ^ ((s : ℤ) - 1074) := by
      rw [two_zpow_sub, valueAt, hr]; push_cast; ring
    rw [← hv, rounded_valueAt]
  rw [hq]
  have hj := key k.natAbs (by rw [Int.abs_eq_natAbs] at hk; omega)
  rw [Nat.cast_natAbs] at hj
  rcases abs_choice k with h | h
  · rwa [h] at hj
  · rw [h] at hj
    push_cast at hj
    rwa [neg_mul, rounded_neg, neg_inj] at hj

theorem rounded_intCast {n : ℤ} (h : |n| ≤ 2 ^ 53) : rounded n = n :=
  rounded_eq_self n 0 (by simp) h (by omega)

theorem rounded_natCast {n : ℕ} (hn : n ≤ 2 ^ 53) : rounded n = n :=
  rounded_intCast (n := n) (by rw [Nat.abs_cast]; exact_mod_cast hn)

theorem rounded_div_two {k : ℤ} (hk : |k| ≤ 2 ^ 53) : rounded (k / 2) = k / 2 :=
  rounded_eq_self k (-1) (by rw [zpow_neg_one]; rfl) hk (by omega)

theorem rounded_div_four {k : ℤ} (hk : |k| ≤ 2 ^ 53) : rounded (k / 4) = k / 4 :=
  rounded_eq_self k (-2) (by norm_num; ring) hk (by omega)

theorem rounded_rounded (q : ℚ) : rounded (rounded q) = rounded q := by
  induction q using forall_of_nonneg_of_neg with
  | h0 q h => rw [rounded_of_nonneg h, rounded_valueAt]
  | hn q ih => rw [rounded_neg, rounded_neg, ih]

theorem rounded_two_pow (i : ℕ) : rounded (2 ^ i) = 2 ^ i :=
  rounded_eq_self 1 i (by simp) (by decide) (by omega)

@[simp] theorem rounded_one : rounded 1 = 1 := by
  simpa using rounded_two_pow 0

/-- A bound that is a binary64 value is kept. -/
theorem abs_rounded_le {q b : ℚ} (hb : rounded b = b) (h : |q| ≤ b) : |rounded q| ≤ b := by
  obtain ⟨h1, h2⟩ := abs_le.mp h
  have lo := rounded_mono h1
  have hi := rounded_mono h2
  rw [rounded_neg, hb] at lo
  rw [hb] at hi
  exact abs_le.mpr ⟨lo, hi⟩

theorem le_abs_rounded {q b : ℚ} (hb : rounded b = b) (h : b ≤ |q|) : b ≤ |rounded q| := by
  rcases le_abs.mp h with h | h
  · exact hb ▸ (rounded_mono h).trans (le_abs_self _)
  · have le := rounded_mono h
    rw [rounded_neg, hb] at le
    exact le.trans (neg_le_abs _)

/-! ## The error -/

/-- Inside a binade the result is a whole multiple of the spacing. -/
theorem rounded_of_binade {q : ℚ} {t : ℤ} (ht : -1074 ≤ t) (h0 : 0 ≤ q)
    (hlo : t = -1074 ∨ 2 ^ (52 + t) ≤ q) (hhi : q ≤ 2 ^ (53 + t)) :
    rounded q = wholeNear (q / 2 ^ t) * 2 ^ t := by
  rw [rounded_of_nonneg h0, valueAt_rankNear ht h0 hlo hhi]

/-- Inside a binade no whole multiple of the spacing is nearer. -/
theorem abs_rounded_sub_le_multiple {q : ℚ} {t : ℤ} (ht : -1074 ≤ t) (h0 : 0 ≤ q)
    (hlo : t = -1074 ∨ 2 ^ (52 + t) ≤ q) (hhi : q ≤ 2 ^ (53 + t)) (k : ℤ) :
    |rounded q - q| ≤ |k * 2 ^ t - q| := by
  have hp : (0 : ℚ) < 2 ^ t := by positivity
  rw [rounded_of_binade ht h0 hlo hhi, abs_mul_sub hp, abs_mul_sub hp]
  exact mul_le_mul_of_nonneg_right (abs_wholeNear_sub_le_abs (div_nonneg h0 hp.le) k) hp.le

/-- A binary64 value lies on every spacing that is not coarser than its own, or below the binade
of a coarser one. -/
theorem exists_multiple_or_valueAt_le (r : ℕ) (t : ℤ) :
    (∃ k : ℤ, valueAt r = k * 2 ^ t) ∨ -1074 < t ∧ valueAt r ≤ 2 ^ (52 + t) := by
  obtain ⟨k, t', ht', hk, hv⟩ := exists_valueAt_eq r
  rcases le_or_gt t t' with h | h
  · left
    refine ⟨k * 2 ^ (t' - t).toNat, ?_⟩
    push_cast
    rw [hv, ← zpow_natCast, mul_assoc, ← zpow_add₀ two_ne_zero]
    congr 2
    omega
  · right
    refine ⟨by omega, ?_⟩
    have hk' : (k : ℚ) ≤ 2 ^ (53 : ℤ) := by exact_mod_cast hk.le
    calc valueAt r ≤ 2 ^ (53 : ℤ) * 2 ^ t' := hv ▸ mul_le_mul_of_nonneg_right hk' (by positivity)
      _ = 2 ^ (53 + t') := (zpow_add₀ two_ne_zero _ _).symm
      _ ≤ 2 ^ (52 + t) := zpow_le_zpow_right₀ one_le_two (by omega)

/-- No binary64 value is nearer than the rounding. -/
theorem abs_rounded_sub_le_abs {y : ℚ} (hy : rounded y = y) (q : ℚ) :
    |rounded q - q| ≤ |y - q| := by
  induction q using forall_of_nonneg_of_neg generalizing y with
  | hn q ih =>
    have e1 : rounded (-q) - -q = -(rounded q - q) := by rw [rounded_neg]; ring
    have e2 : y - -q = -(-y - q) := by ring
    rw [e1, e2, abs_neg, abs_neg]
    exact ih (by rw [rounded_neg, hy])
  | h0 q h0 =>
    obtain ⟨t, ht, hlo, hhi⟩ := exists_binade_of_nonneg h0
    have grid := abs_rounded_sub_le_multiple ht h0 hlo hhi
    rcases lt_or_ge y 0 with hneg | hpos
    · have h := grid 0
      rw [Int.cast_zero, zero_mul, zero_sub, abs_neg, abs_of_nonneg h0] at h
      rw [abs_of_nonpos (by linarith : y - q ≤ 0)]
      linarith
    · rw [rounded_of_nonneg hpos] at hy
      rcases exists_multiple_or_valueAt_le (rankNear y) t with ⟨k, hv⟩ | ⟨hlt, hle⟩
      · have h' := grid k
        rwa [← hv, hy] at h'
      · -- the start of the binade is nearer than a value below it
        have hq : 2 ^ (52 + t) ≤ q := hlo.resolve_left (by omega)
        rw [hy] at hle
        have h' := grid (2 ^ 52)
        rw [show (((2 : ℤ) ^ 52 : ℤ) : ℚ) = 2 ^ (52 : ℤ) by norm_num, ← zpow_add₀ two_ne_zero,
          abs_of_nonpos (by linarith : (2 : ℚ) ^ (52 + t) - q ≤ 0)] at h'
        rw [abs_of_nonpos (by linarith : y - q ≤ 0)]
        linarith

/-- Below a power of two the error is at most half the spacing there. -/
theorem abs_rounded_sub_le {q : ℚ} {t : ℤ} (ht : -1074 ≤ t) (hq : |q| ≤ 2 ^ (53 + t)) :
    |rounded q - q| ≤ 2 ^ (t - 1) := by
  induction q using forall_of_nonneg_of_neg with
  | h0 q h0 =>
    rw [abs_of_nonneg h0] at hq
    obtain ⟨t', h1, h2, hlo, hhi⟩ := exists_binade ht hq
    have hp : (0 : ℚ) < 2 ^ t' := by positivity
    have hw := abs_wholeNear_sub_le (div_nonneg h0 hp.le)
    rw [rounded_of_binade h1 h0 hlo hhi]
    calc |wholeNear (q / 2 ^ t') * 2 ^ t' - q|
        = |wholeNear (q / 2 ^ t') - q / 2 ^ t'| * 2 ^ t' := abs_mul_sub hp _ _
      _ ≤ 1 / 2 * 2 ^ t' := mul_le_mul_of_nonneg_right hw hp.le
      _ = 2 ^ (t' - 1) := by rw [zpow_sub_one₀ two_ne_zero]; ring
      _ ≤ 2 ^ (t - 1) := zpow_le_zpow_right₀ one_le_two (by omega)
  | hn q ih =>
    rw [abs_neg] at hq
    rw [rounded_neg, neg_sub_neg, abs_sub_comm]
    exact ih hq

/-- From the least normal number on, the relative error is at most `2^-53`. -/
theorem abs_rounded_sub_le_div {q : ℚ} (hq : 2 ^ (-1022 : ℤ) ≤ |q|) :
    |rounded q - q| ≤ |q| / 2 ^ 53 := by
  have hpos : 0 < |q| := lt_of_lt_of_le (by positivity) hq
  have hlo := Int.zpow_log_le_self (b := 2) one_lt_two hpos
  have hhi := Int.lt_zpow_succ_log_self (b := 2) one_lt_two |q|
  rw [Nat.cast_ofNat] at hlo hhi
  generalize Int.log 2 |q| = l at hlo hhi
  have hl : -1022 < l + 1 := (zpow_lt_zpow_iff_right₀ one_lt_two).mp (hq.trans_lt hhi)
  have e : 53 + (l - 52) = l + 1 := by ring
  calc |rounded q - q| ≤ 2 ^ (l - 52 - 1) := abs_rounded_sub_le (by omega) (by rw [e]; exact hhi.le)
    _ = 2 ^ l / 2 ^ 53 := by
      rw [← zpow_natCast (2 : ℚ) 53, ← zpow_sub₀ two_ne_zero]; congr 1; push_cast; ring
    _ ≤ |q| / 2 ^ 53 := div_le_div_of_nonneg_right hlo (by positivity)

theorem abs_rounded_sub_le_div_of_one_le {q : ℚ} (hq : 1 ≤ q) :
    |rounded q - q| ≤ q / 2 ^ 53 := by
  have h0 : |q| = q := abs_of_nonneg (by linarith)
  have h1 : (2 : ℚ) ^ (-1022 : ℤ) ≤ 1 := zpow_le_one_of_nonpos₀ one_le_two (by omega)
  have h := abs_rounded_sub_le_div (q := q) (by rw [h0]; exact h1.trans hq)
  rwa [h0] at h

end Binary64

end Coinage
