import Coinage.Proofs.PowersOfTen
import Coinage.Proofs.WholeHao

/-!
# Amounts through a number of coins and back

An amount becomes a number of coins, and that number is entered again. Four roundings stand
between the two amounts: the one to a binary64 number, the division by `10^8`, the
multiplication by it, and the addition of a half before the cut. `returned` is the number of
Hao before the last of them.

Results.

* `ofNumber_toCoin`: the way back ends in the rounded number, brought into the range.
* `drift_eq_zero`, `abs_drift_le_two`, `abs_drift_mul_le`: how far that is off, by size.
* `coin_roundTrip_drift`: the same of amounts, the ends of the range included.
-/
namespace Coinage.Amount

open Binary64

/-- The number of Hao that the number of coins of `q` Hao is read as. -/
def returned (q : ℚ) : ℚ := rounded (rounded (rounded q / 10 ^ 8) * 10 ^ 8)

theorem returned_neg (q : ℚ) : returned (-q) = -returned q := by
  simp only [returned, rounded_neg, neg_div, neg_mul]

theorem returned_nonneg {q : ℚ} (h : 0 ≤ q) : 0 ≤ returned q :=
  rounded_nonneg (mul_nonneg (rounded_nonneg (div_nonneg (rounded_nonneg h) (by norm_num)))
    (by norm_num))

theorem rounded_returned (q : ℚ) : rounded (returned q) = returned q := rounded_rounded _

/-- How far the amount is off after the way to coins and back, without the ends of the range. -/
def drift (n : ℤ) : ℤ := wholeHao (returned n) - n

theorem drift_neg (n : ℤ) : drift (-n) = -drift n := by
  simp only [drift, Int.cast_neg, returned_neg, wholeHao_neg]
  ring

theorem drift_natAbs (n : ℤ) : |drift n| = |drift n.natAbs| := by
  rcases Int.natAbs_eq n with h | h
  · rw [← h]
  · conv_lhs => rw [h]
    rw [drift_neg, abs_neg]

theorem denotes_toCoin (a : Amount) : Denotes a.toCoin (rounded (rounded a.hao / 10 ^ 8)) :=
  a.denotes_toUnit (u := .coin) (k := 8) rfl (by omega)

theorem abs_product_le (a : Amount) : |rounded (rounded a.hao / 10 ^ 8) * 10 ^ 8| ≤ 2 ^ 91 := by
  have coins := abs_div_ten_pow_le a.abs_rounded_hao_le 8
  rw [abs_mul]
  calc _ ≤ (2 : ℚ) ^ 63 * |10 ^ 8| := mul_le_mul_of_nonneg_right
        (abs_rounded_le (rounded_two_pow 63) coins) (abs_nonneg _)
    _ ≤ 2 ^ 91 := by norm_num

theorem denotes_oneCoin : Denotes (ofInt oneCoin.hao) (10 ^ 8) := by
  have h := denotes_ofInt_of_abs_le (n := oneCoin.hao) (by decide)
  rwa [show ((oneCoin.hao : ℤ) : ℚ) = 10 ^ 8 by norm_num [oneCoin]] at h

/-- The way back always ends in an amount: the whole number of Hao, brought into the range. -/
theorem ofNumber_toCoin (a : Amount) : ∃ r, ofNumber .coin a.toCoin = .silent (.ok r) ∧
    r.hao = max (-2 ^ 63) (min (wholeHao (returned a.hao)) (2 ^ 63 - 1)) := by
  have hc := denotes_toCoin a
  have hp := hc.mul denotes_oneCoin (fits_of_abs_le 91 a.abs_product_le (by omega))
  exact ⟨_, if_pos hc.1, hao_nearest hp⟩

/-! ## The error in front of the last rounding -/

section Nonneg

variable {n : ℕ}

/-- Below a power of two, what the division leaves to the multiplication. -/
theorem abs_quotient_mul_sub_le {q : ℚ} {t : ℤ} (ht : -1074 ≤ t) (h0 : 0 ≤ q)
    (hq : q ≤ 10 ^ 8 * 2 ^ (53 + t)) :
    |rounded (q / 10 ^ 8) * 10 ^ 8 - q| ≤ 10 ^ 8 * 2 ^ (t - 1) := by
  have h8 : (0 : ℚ) < 10 ^ 8 := by norm_num
  have hb : |q / 10 ^ 8| ≤ 2 ^ (53 + t) := by
    rw [abs_of_nonneg (by positivity), div_le_iff₀ h8, mul_comm]
    exact hq
  calc |rounded (q / 10 ^ 8) * 10 ^ 8 - q|
      = |rounded (q / 10 ^ 8) - q / 10 ^ 8| * 10 ^ 8 := abs_mul_sub h8 _ _
    _ ≤ 2 ^ (t - 1) * 10 ^ 8 := mul_le_mul_of_nonneg_right (abs_rounded_sub_le ht hb) h8.le
    _ = 10 ^ 8 * 2 ^ (t - 1) := mul_comm _ _

/-- On a spacing of one half, a quarter above a whole number is not enough to leave it. -/
theorem rounded_le_of_le_quarter {x : ℚ} (h1 : 2 ^ 51 ≤ n) (h2 : n < 2 ^ 52) (h : x ≤ n + 1 / 4) :
    rounded x ≤ n := by
  have c51 : (2 : ℚ) ^ 51 ≤ n := by exact_mod_cast h1
  have c52 : (n : ℚ) + 1 ≤ 2 ^ 52 := by exact_mod_cast h2
  have hw : wholeNear ((n + 1 / 4) / 2 ^ (-1 : ℤ)) = 2 * n := by
    have e : ((n + 1 / 4) / 2 ^ (-1 : ℤ) : ℚ) = ((2 * n : ℕ) : ℚ) + 1 / 2 := by
      rw [zpow_neg_one, div_inv_eq_mul]; push_cast; ring
    rw [e, wholeNear_tie, if_pos (by omega)]
  refine (rounded_mono h).trans (le_of_eq ?_)
  rw [rounded_of_binade (t := -1) (by omega) (by positivity) (.inr (by norm_num; linarith))
    (by norm_num; linarith), hw, zpow_neg_one]
  push_cast
  ring

theorem le_rounded_add_half {x : ℚ} (hn : n < 2 ^ 52) (hlo : n - 1 / 2 ≤ x) :
    n ≤ rounded (rounded x + 1 / 2) := by
  have e := rounded_div_two (k := 2 * n - 1) (by rw [abs_le]; omega)
  have hx := rounded_mono (show (2 * n - 1 : ℤ) / 2 ≤ x by push_cast; linarith)
  rw [e] at hx
  push_cast at hx
  have hs := rounded_mono (show (n : ℚ) ≤ rounded x + 1 / 2 by linarith)
  rwa [rounded_natCast (by omega)] at hs

/-- Some binary64 value in front of `n + 1` bounds the sum: three quarters above `n` where the
spacing allows it, else one half. -/
theorem rounded_add_half_lt {x : ℚ} (hn : n < 2 ^ 52) (hhi : x ≤ n + 1 / 4) :
    rounded (rounded x + 1 / 2) < n + 1 := by
  rcases Nat.lt_or_ge n (2 ^ 51) with hs | hs
  · have e1 := rounded_div_four (k := 4 * n + 1) (by rw [abs_le]; omega)
    have e2 := rounded_div_four (k := 4 * n + 3) (by rw [abs_le]; omega)
    have hx := rounded_mono (show x ≤ (4 * n + 1 : ℤ) / 4 by push_cast; linarith)
    rw [e1] at hx
    push_cast at hx
    have hy := rounded_mono (show rounded x + 1 / 2 ≤ (4 * n + 3 : ℤ) / 4 by push_cast; linarith)
    rw [e2] at hy
    push_cast at hy
    linarith
  · have e1 := rounded_div_two (k := 2 * n + 1) (by rw [abs_le]; omega)
    have hx := rounded_le_of_le_quarter hs hn hhi
    have hy := rounded_mono (show rounded x + 1 / 2 ≤ (2 * n + 1 : ℤ) / 2 by push_cast; linarith)
    rw [e1] at hy
    push_cast at hy
    linarith

/-- A number from half below `n` to a quarter above comes back as `n`, below `2^52`. -/
theorem wholeHao_rounded_eq {x : ℚ} (hn : n < 2 ^ 52) (h0 : 0 ≤ x) (hlo : n - 1 / 2 ≤ x)
    (hhi : x ≤ n + 1 / 4) : wholeHao (rounded x) = n :=
  wholeHao_eq (rounded_nonneg h0) (le_rounded_add_half hn hlo) (rounded_add_half_lt hn hhi)

theorem returned_eq (hn : n ≤ 2 ^ 53) :
    returned n = rounded (rounded (n / 10 ^ 8) * 10 ^ 8) := by
  rw [returned, rounded_natCast hn]

theorem product_nonneg (n : ℕ) : 0 ≤ rounded (n / 10 ^ 8) * 10 ^ 8 :=
  mul_nonneg (rounded_nonneg (by positivity)) (by norm_num)

theorem drift_eq_zero (hn : n ≤ 2 ^ 25 * 10 ^ 8) : drift n = 0 := by
  have hc : (n : ℚ) ≤ 2 ^ 25 * 10 ^ 8 := by exact_mod_cast hn
  have hp := abs_quotient_mul_sub_le (q := n) (t := -28) (by omega) (Nat.cast_nonneg n)
    (by norm_num at hc ⊢; exact hc)
  norm_num at hp
  obtain ⟨p1, p2⟩ := abs_le.mp hp
  have hw := wholeHao_rounded_eq (n := n) (by omega) (product_nonneg n)
    (by norm_num; linarith) (by norm_num; linarith)
  rw [drift, Int.cast_natCast, returned_eq (by omega), hw, sub_self]

/-- The last rounding adds at most one to the error in front of it. -/
theorem abs_drift_le : |(drift n : ℚ)| ≤ |returned n - n| + 1 := by
  have h0 := returned_nonneg (Nat.cast_nonneg (α := ℚ) n)
  have h := abs_wholeHao_sub_le h0 (rounded_returned n)
  have e : (drift n : ℚ) = (wholeHao (returned n) - returned n) + (returned n - n) := by
    rw [drift]; push_cast; ring
  rw [e]
  linarith [abs_add_le ((wholeHao (returned n) : ℚ) - returned n) (returned n - n)]

theorem abs_drift_le_two (hn : n < 2 ^ 53) : |drift n| ≤ 2 := by
  have hc : (n : ℚ) + 1 ≤ 2 ^ 53 := by exact_mod_cast hn
  have hp := abs_quotient_mul_sub_le (q := n) (t := -26) (by omega) (Nat.cast_nonneg n)
    (by norm_num at hc ⊢; linarith)
  norm_num at hp
  obtain ⟨p1, p2⟩ := abs_le.mp hp
  have hb : |rounded (n / 10 ^ 8) * 10 ^ 8| ≤ 2 ^ (53 + (0 : ℤ)) := by
    rw [abs_of_nonneg (product_nonneg n)]
    norm_num at hc ⊢
    linarith
  have he := abs_rounded_sub_le (t := 0) (by omega) hb
  norm_num at he
  obtain ⟨e1, e2⟩ := abs_le.mp he
  have hr : |returned n - n| ≤ 5 / 4 := by
    rw [returned_eq hn.le, abs_le]
    norm_num
    constructor <;> linarith
  have hd := (abs_drift_le (n := n)).trans (add_le_add_left hr 1)
  have hd' : |(drift n : ℚ)| < 3 := hd.trans_lt (by norm_num)
  have : |drift n| < 3 := by exact_mod_cast hd'
  omega

/-- Just above `2^53` the spacings are known one by one. -/
theorem abs_returned_sub_le (h : n ≤ 2 ^ 27 * 10 ^ 8) :
    |returned n - n| ≤ 11 / 4 := by
  have c2 : (n : ℚ) ≤ 10 ^ 8 * 2 ^ 27 := by rw [mul_comm]; exact_mod_cast h
  have hf := abs_rounded_sub_le (q := n) (t := 1) (by omega)
    (by rw [Nat.abs_cast]; norm_num at c2 ⊢; linarith)
  have hb : rounded n ≤ 10 ^ 8 * 2 ^ 27 := by
    rw [← rounded_eq_self (q := 10 ^ 8 * 2 ^ 27) (10 ^ 8) 27 (by norm_num) (by decide) (by decide)]
    exact rounded_mono c2
  have hq := abs_quotient_mul_sub_le (t := -26) (by omega) (rounded_nonneg (Nat.cast_nonneg n))
    (by norm_num at hb ⊢; exact hb)
  norm_num at hf hq hb
  obtain ⟨f1, f2⟩ := abs_le.mp hf
  obtain ⟨q1, q2⟩ := abs_le.mp hq
  have h0 : 0 ≤ rounded (rounded n / 100000000) * 100000000 := mul_nonneg (rounded_nonneg
    (div_nonneg (rounded_nonneg (Nat.cast_nonneg n)) (by norm_num))) (by norm_num)
  have hp := abs_rounded_sub_le (q := rounded (rounded n / 100000000) * 100000000) (t := 1)
    (by omega) (by rw [abs_of_nonneg h0]; norm_num; linarith)
  norm_num at hp
  obtain ⟨p1, p2⟩ := abs_le.mp hp
  rw [returned, abs_le]
  norm_num
  constructor <;> linarith

/-- Far above `2^53` three relative errors and one Hao stay within four of the first. -/
theorem abs_returned_sub_add_one_le (h1 : 2 ^ 27 * 10 ^ 8 ≤ n) :
    |returned n - n| + 1 ≤ n / 2 ^ 51 := by
  have c1 : (2 : ℚ) ^ 27 * 10 ^ 8 ≤ n := by exact_mod_cast h1
  have hf := abs_rounded_sub_le_div_of_one_le (q := n) (by linarith)
  norm_num at hf
  obtain ⟨f1, f2⟩ := abs_le.mp hf
  have hq := abs_rounded_sub_le_div_of_one_le (q := rounded n / 100000000) (by linarith)
  norm_num at hq
  obtain ⟨q1, q2⟩ := abs_le.mp hq
  have hp := abs_rounded_sub_le_div_of_one_le
    (q := rounded (rounded n / 100000000) * 100000000) (by linarith)
  norm_num at hp
  obtain ⟨p1, p2⟩ := abs_le.mp hp
  have hr : |returned n - n| ≤ n / 2251799813685248 - 1 := by
    rw [returned, abs_le]
    norm_num
    constructor <;> linarith
  norm_num
  linarith

theorem abs_drift_mul_le (h : 2 ^ 53 ≤ n) : |drift n| * 2 ^ 51 ≤ n := by
  rcases Nat.le_total n (2 ^ 27 * 10 ^ 8) with hs | hs
  · have hd := abs_drift_le.trans (add_le_add_left (abs_returned_sub_le hs) 1)
    have hd' : |(drift n : ℚ)| < 4 := hd.trans_lt (by norm_num)
    have : |drift n| < 4 := by exact_mod_cast hd'
    omega
  · have hd := abs_drift_le.trans (abs_returned_sub_add_one_le hs)
    have hd' : |(drift n : ℚ)| * 2 ^ 51 ≤ n := by norm_num at hd ⊢; linarith
    exact_mod_cast hd'

end Nonneg

/-! ## The ends of the range -/

theorem rounded_end : rounded (2 ^ 63 - 1) = 2 ^ 63 := by
  have hw : wholeNear ((2 ^ 63 - 1) / 2 ^ (10 : ℤ)) = 2 ^ 53 :=
    wholeNear_eq (by norm_num) (by norm_num [abs_lt])
  rw [rounded_of_binade (t := 10) (by omega) (by norm_num) (.inr (by norm_num)) (by norm_num), hw]
  norm_num

theorem returned_end : returned (2 ^ 63) = 2 ^ 63 := by
  have hc : rounded (2 ^ 63 / 10 ^ 8) = 6044629098073146 / 2 ^ 16 := by
    have hw : wholeNear (2 ^ 63 / 10 ^ 8 / 2 ^ (-16 : ℤ)) = 6044629098073146 :=
      wholeNear_eq (by norm_num) (by norm_num [abs_lt])
    rw [rounded_of_binade (t := -16) (by omega) (by norm_num) (.inr (by norm_num)) (by norm_num),
      hw]
    norm_num
  have hw : wholeNear (6044629098073146 / 2 ^ 16 * 10 ^ 8 / 2 ^ (11 : ℤ)) = 2 ^ 52 :=
    wholeNear_eq (by norm_num) (by norm_num [abs_lt])
  rw [returned, rounded_two_pow, hc,
    rounded_of_binade (t := 11) (by omega) (by norm_num) (.inr (by norm_num)) (by norm_num), hw]
  norm_num

theorem le_wholeHao_end : 2 ^ 63 ≤ wholeHao (2 ^ 63) := by
  have h := le_wholeHao (q := 2 ^ 63) (n := 2 ^ 63) (by exact_mod_cast rounded_two_pow 63)
    (by norm_num)
  exact_mod_cast h

theorem wholeHao_returned_greatest : 2 ^ 63 ≤ wholeHao (returned greatest.hao) := by
  have e : returned greatest.hao = returned (2 ^ 63) := by
    have hg : ((greatest.hao : ℤ) : ℚ) = 2 ^ 63 - 1 := by norm_num [greatest]
    rw [returned, returned, hg, rounded_end, rounded_two_pow]
  rw [e, returned_end]
  exact le_wholeHao_end

theorem wholeHao_returned_least : wholeHao (returned least.hao) ≤ -2 ^ 63 := by
  have hl : ((least.hao : ℤ) : ℚ) = -2 ^ 63 := by norm_num [least]
  rw [hl, returned_neg, returned_end, wholeHao_neg]
  exact neg_le_neg le_wholeHao_end

/-! ## The drift of an amount -/

/-- Bringing a result into the range takes it no further from an amount. -/
theorem abs_clamp_sub_le (a : Amount) (n : ℤ) :
    |max (-2 ^ 63) (min n (2 ^ 63 - 1)) - a.hao| ≤ |n - a.hao| := by
  have := a.lower
  have := a.upper
  have h1 := le_abs_self (n - a.hao)
  have h2 := neg_abs_le (n - a.hao)
  rw [abs_le]
  constructor <;> omega

/-- The way to coins and back ends in an amount. It is the same one up to `2^25` coins and at both
ends of the range, at most two Hao away below `2^53` Hao, and from there on away by at most one
part in `2^51`. -/
theorem coin_roundTrip_drift (a : Amount) :
    ∃ r, ofNumber .coin a.toCoin = .silent (.ok r) ∧
      (|a.hao| ≤ 2 ^ 25 * 10 ^ 8 → r = a) ∧
      (|a.hao| < 2 ^ 53 → |r.hao - a.hao| ≤ 2) ∧
      (2 ^ 53 ≤ |a.hao| → |r.hao - a.hao| * 2 ^ 51 ≤ |a.hao|) ∧
      (a = least ∨ a = greatest → r = a) := by
  obtain ⟨r, hr, e⟩ := ofNumber_toCoin a
  have hd : |r.hao - a.hao| ≤ |drift a.hao.natAbs| := by
    rw [← drift_natAbs, e]
    exact abs_clamp_sub_le a _
  have habs : |a.hao| = a.hao.natAbs := Int.abs_eq_natAbs a.hao
  rw [habs]
  refine ⟨r, hr, ?_, ?_, ?_, ?_⟩
  · intro h
    rw [drift_eq_zero (by omega), abs_zero] at hd
    exact hao_inj.mp (sub_eq_zero.mp (abs_nonpos_iff.mp hd))
  · intro h
    exact hd.trans (abs_drift_le_two (by omega))
  · intro h
    exact (mul_le_mul_of_nonneg_right hd (by norm_num)).trans (abs_drift_mul_le (by omega))
  · rintro (rfl | rfl)
    · have := wholeHao_returned_least
      have hl : least.hao = -2 ^ 63 := rfl
      exact hao_inj.mp (by omega)
    · have := wholeHao_returned_greatest
      have hg : greatest.hao = 2 ^ 63 - 1 := rfl
      exact hao_inj.mp (by omega)

end Coinage.Amount
