import Coinage.Proofs.CoinRoundTrip

/-!
# The amounts that come back from coins

Below `2^53` Hao an amount is a binary64 value, and the number of coins is its quotient by `10^8`
rounded once, on a spacing of `2^-27` up to `2^26` coins and of `2^-26` beyond. Whether the amount
comes back then hangs on how far that quotient was rounded up, and from `2^52` Hao on also on
the sum with a half, which is a tie there and goes to the even neighbour.

Results.

* `ComesBack`: the amounts below `2^53` that come back, by residues.
* `coin_roundTrip_iff`: these and no others do.
* `coin_roundTrip_fails`: one that does not.
-/
namespace Coinage.Amount

open Binary64

/-- The quotient of `n` by `10^8`, on the spacing `2^-i`, is rounded up by so much that the product
with `10^8` exceeds `n` by more than `2^(25-i)`. -/
def RoundsFarUp (i n : ℕ) : Prop :=
  5 * 10 ^ 7 < 2 ^ i * n % 10 ^ 8 ∧ 2 ^ i * n % 10 ^ 8 < 10 ^ 8 - 2 ^ 25

instance (i n : ℕ) : Decidable (RoundsFarUp i n) := inferInstanceAs (Decidable (_ ∧ _))

/-- The counts of Hao below `2^53` that survive the way to coins and back. -/
def ComesBack (n : ℕ) : Prop :=
  if n ≤ 2 ^ 25 * 10 ^ 8 then True
  else if n < 2 ^ 52 then ¬RoundsFarUp 27 n
  else n % 2 = 0 ∧ (n ≤ 2 ^ 26 * 10 ^ 8 ∨ ¬RoundsFarUp 26 n)

instance (n : ℕ) : Decidable (ComesBack n) := by
  unfold ComesBack
  exact inferInstance

section

variable {n : ℕ} {x : ℚ}

/-- The quotient as a whole number of its spacing. -/
theorem rounded_quotient {i : ℕ} (hi : i ≤ 52) (hlo : 2 ^ (52 - i) * 10 ^ 8 ≤ n)
    (hhi : n ≤ 2 ^ (53 - i) * 10 ^ 8) :
    rounded (n / 10 ^ 8) = (halfEven (2 ^ i * n) (10 ^ 8) : ℚ) / 2 ^ i := by
  have clo : (2 : ℚ) ^ (52 + -(i : ℤ)) ≤ n / 10 ^ 8 := by
    rw [le_div_iff₀ (by norm_num), ← sub_eq_add_neg, ← Nat.cast_ofNat (n := 52), ← Nat.cast_sub hi,
      zpow_natCast]
    exact_mod_cast hlo
  have chi : (n / 10 ^ 8 : ℚ) ≤ 2 ^ (53 + -(i : ℤ)) := by
    rw [div_le_iff₀ (by norm_num), ← sub_eq_add_neg, ← Nat.cast_ofNat (n := 53),
      ← Nat.cast_sub (show i ≤ 53 by omega), zpow_natCast]
    exact_mod_cast hhi
  have e : (n / 10 ^ 8 / 2 ^ (-(i : ℤ)) : ℚ) = ((2 ^ i * n : ℕ) : ℚ) / (10 ^ 8 : ℕ) := by
    rw [zpow_neg, zpow_natCast, div_inv_eq_mul]; push_cast; ring
  rw [rounded_of_binade (t := -(i : ℤ)) (by omega) (by positivity) (.inr clo) chi, e,
    wholeNear_div _ (by positivity), zpow_neg, zpow_natCast, div_eq_mul_inv]

/-- How far the product may exceed `n`, as a condition on residues. -/
theorem halfEven_le_iff {m : ℕ} (hm : m % 2 ^ 8 = 0) :
    10 ^ 8 * halfEven m (10 ^ 8) ≤ m + 2 ^ 25 ↔
      ¬(5 * 10 ^ 7 < m % 10 ^ 8 ∧ m % 10 ^ 8 < 10 ^ 8 - 2 ^ 25) := by
  unfold halfEven
  split <;> omega

/-- The excess of the product over `n`, on the spacing of the quotient. -/
theorem product_le_iff {i : ℕ} (h8 : 8 ≤ i) (hi : i ≤ 52) (hlo : 2 ^ (52 - i) * 10 ^ 8 ≤ n)
    (hhi : n ≤ 2 ^ (53 - i) * 10 ^ 8) :
    rounded (n / 10 ^ 8) * 10 ^ 8 ≤ n + 2 ^ 25 / 2 ^ i ↔ ¬RoundsFarUp i n := by
  have hm : 2 ^ i * n % 2 ^ 8 = 0 :=
    Nat.mod_eq_zero_of_dvd (Dvd.dvd.mul_right (Nat.pow_dvd_pow 2 h8) n)
  have hp : (0 : ℚ) < 2 ^ i := by positivity
  have e1 : (halfEven (2 ^ i * n) (10 ^ 8) / 2 ^ i * 10 ^ 8 : ℚ) =
      10 ^ 8 * halfEven (2 ^ i * n) (10 ^ 8) / 2 ^ i := by ring
  have e2 : (n + 2 ^ 25 / 2 ^ i : ℚ) = (2 ^ i * n + 2 ^ 25) / 2 ^ i := by
    rw [add_div, mul_div_cancel_left₀ _ hp.ne']
  rw [RoundsFarUp, ← halfEven_le_iff hm, rounded_quotient hi hlo hhi, e1, e2,
    div_le_div_iff_of_pos_right hp]
  exact_mod_cast Iff.rfl

/-! ## Below `2^52` -/

theorem wholeHao_rounded_eq_iff_of_lt (h1 : 2 ^ 51 < n) (h2 : n < 2 ^ 52) (hx : |x - n| ≤ 3 / 8) :
    wholeHao (rounded x) = n ↔ x ≤ n + 1 / 4 := by
  obtain ⟨x1, x2⟩ := abs_le.mp hx
  have c51 : (2 : ℚ) ^ 51 + 1 ≤ n := by exact_mod_cast h1
  have c52 : (n : ℚ) + 1 ≤ 2 ^ 52 := by exact_mod_cast h2
  constructor
  · intro h
    by_contra hgt
    rw [not_le] at hgt
    have hw : wholeNear (x / 2 ^ (-1 : ℤ)) = 2 * n + 1 := by
      refine wholeNear_eq (by rw [zpow_neg_one, div_inv_eq_mul]; linarith) ?_
      rw [zpow_neg_one, div_inv_eq_mul, abs_lt]
      push_cast
      constructor <;> linarith
    have hp : rounded x = n + 1 / 2 := by
      rw [rounded_of_binade (t := -1) (by omega) (by linarith) (.inr (by norm_num; linarith))
        (by norm_num; linarith), hw, zpow_neg_one]
      push_cast
      ring
    have hs : wholeHao (rounded x) = (n + 1 : ℕ) := by
      have e := rounded_natCast (n := n + 1) (by omega)
      refine wholeHao_eq (rounded_nonneg (by linarith)) ?_ ?_ <;>
        rw [hp, show (n + 1 / 2 + 1 / 2 : ℚ) = (n + 1 : ℕ) by push_cast; ring, e] <;> simp
    omega
  · exact fun h => wholeHao_rounded_eq h2 (by linarith) (by linarith) h

/-! ## From `2^52` on -/

theorem wholeHao_natCast_eq_iff {m : ℕ} (hm : 2 ^ 52 ≤ m) (hn : n < 2 ^ 53) (h1 : n ≤ m + 1)
    (h2 : m ≤ n + 1) : wholeHao m = n ↔ n % 2 = 0 ∧ m ≤ n := by
  rcases Nat.lt_or_ge m (2 ^ 53) with h | h
  · rw [wholeHao_natCast hm h]
    split <;> omega
  · have hle := le_wholeHao (q := m) (rounded_natCast (n := 2 ^ 53) le_rfl) (by exact_mod_cast h)
    constructor
    · intro h; omega
    · intro h; omega

theorem wholeHao_rounded_eq_iff (h1 : 2 ^ 52 ≤ x) (h2 : n < 2 ^ 53) (hx : |x - n| ≤ 3 / 4) :
    wholeHao (rounded x) = n ↔ n % 2 = 0 ∧ x ≤ n + 1 / 2 := by
  obtain ⟨x1, x2⟩ := abs_le.mp hx
  have c2 : (n : ℚ) + 1 ≤ 2 ^ 53 := by exact_mod_cast h2
  have h0 : 0 ≤ x := by linarith
  have hw : 2 ^ 52 ≤ wholeNear x := le_wholeNear (by exact_mod_cast h1)
  have hhi : wholeNear x ≤ n + 1 := wholeNear_le h0 (by push_cast; linarith)
  have hlo : n ≤ wholeNear x + 1 := by
    have : ((n - 1 : ℕ) : ℚ) ≤ x := by
      rw [Nat.cast_pred (by omega)]
      linarith
    have := le_wholeNear this
    omega
  rw [rounded_eq_wholeNear h1 (by linarith), wholeHao_natCast_eq_iff hw h2 hlo hhi]
  apply and_congr_right
  intro heven
  exact wholeNear_le_iff_of_even h0 heven

/-- The product never falls below `2^52` from above. -/
theorem le_product (h : 2 ^ 52 ≤ n) : 2 ^ 52 ≤ rounded (n / 10 ^ 8) * 10 ^ 8 := by
  have hw : wholeNear (2 ^ 52 / 10 ^ 8 / 2 ^ (-27 : ℤ)) = 6044629098073146 :=
    wholeNear_eq (by norm_num) (by norm_num [abs_lt])
  have he : rounded (2 ^ 52 / 10 ^ 8) = 6044629098073146 / 2 ^ 27 := by
    rw [rounded_of_binade (t := -27) (by omega) (by norm_num) (.inr (by norm_num)) (by norm_num),
      hw]
    norm_num
  have hm : rounded (2 ^ 52 / 10 ^ 8) ≤ rounded (n / 10 ^ 8) :=
    rounded_mono (div_le_div_of_nonneg_right (by exact_mod_cast h) (by norm_num))
  rw [he] at hm
  norm_num at hm ⊢
  linarith

/-- Up to `2^26` coins the product is off by less than three eighths. -/
theorem abs_product_sub_le_fine (h : n ≤ 2 ^ 26 * 10 ^ 8) :
    |rounded (n / 10 ^ 8) * 10 ^ 8 - n| ≤ 3 / 8 := by
  have c : (n : ℚ) ≤ 2 ^ 26 * 10 ^ 8 := by exact_mod_cast h
  refine (abs_quotient_mul_sub_le (t := -27) (by omega) (Nat.cast_nonneg n) ?_).trans (by norm_num)
  norm_num at c ⊢
  exact c

/-- Up to `2^27` coins the product is off by less than three quarters. -/
theorem abs_product_sub_le_coarse (h : n ≤ 2 ^ 27 * 10 ^ 8) :
    |rounded (n / 10 ^ 8) * 10 ^ 8 - n| ≤ 3 / 4 := by
  have c : (n : ℚ) ≤ 2 ^ 27 * 10 ^ 8 := by exact_mod_cast h
  refine (abs_quotient_mul_sub_le (t := -26) (by omega) (Nat.cast_nonneg n) ?_).trans (by norm_num)
  norm_num at c ⊢
  exact c

theorem drift_eq_zero_iff (hn : n < 2 ^ 53) : drift n = 0 ↔ ComesBack n := by
  rw [drift, Int.cast_natCast, returned_eq hn.le, sub_eq_zero, ComesBack]
  split
  next h25 =>
    have h := drift_eq_zero h25
    rw [drift, Int.cast_natCast, returned_eq hn.le, sub_eq_zero] at h
    exact iff_true_intro h
  next h25 =>
    split
    next h52 =>
      have hp := product_le_iff (n := n) (i := 27) (by omega) (by omega) (by omega) (by omega)
      have he := abs_product_sub_le_fine (n := n) (by omega)
      rw [wholeHao_rounded_eq_iff_of_lt (by omega) h52 he, ← hp]
      norm_num
    next h52 =>
      have he := abs_product_sub_le_coarse (n := n) (by omega)
      rw [wholeHao_rounded_eq_iff (le_product (by omega)) hn he]
      apply and_congr_right
      intro _
      by_cases h26 : n ≤ 2 ^ 26 * 10 ^ 8
      · have h := (abs_le.mp (abs_product_sub_le_fine h26)).2
        exact iff_of_true (by linarith) (.inl h26)
      · have hp := product_le_iff (n := n) (i := 26) (by omega) (by omega) (by omega) (by omega)
        rw [or_iff_right h26, ← hp]
        norm_num

end

/-! ## The amounts that come back -/

theorem ofNumber_toCoin_eq_iff {a : Amount} (h : |a.hao| < 2 ^ 53) :
    ofNumber .coin a.toCoin = .silent (.ok a) ↔ drift a.hao.natAbs = 0 := by
  obtain ⟨r, hr, e⟩ := ofNumber_toCoin a
  have habs : |a.hao| = a.hao.natAbs := Int.abs_eq_natAbs a.hao
  have hd := abs_drift_le_two (n := a.hao.natAbs) (by omega)
  rw [← drift_natAbs, drift, abs_le] at hd
  rw [abs_lt] at h
  -- two Hao away from an amount this small is still in the range
  have hra : r = a ↔ drift a.hao = 0 := by
    rw [← hao_inj, e, drift]
    omega
  rw [hr, ← abs_eq_zero, ← drift_natAbs, abs_eq_zero, ← hra]
  simp [Logged.silent]

/-- Below `2^53` Hao on either side of zero, the amounts that are unchanged by the way to coins and
back are those with `ComesBack`. -/
theorem coin_roundTrip_iff (a : Amount) (h : |a.hao| < 2 ^ 53) :
    ofNumber .coin a.toCoin = .silent (.ok a) ↔ ComesBack a.hao.natAbs := by
  have habs : |a.hao| = a.hao.natAbs := Int.abs_eq_natAbs a.hao
  rw [ofNumber_toCoin_eq_iff h, drift_eq_zero_iff (by omega)]

theorem coin_roundTrip_two_pow_fifty_two :
    ofNumber .coin (toCoin ⟨2 ^ 52, by decide, by decide⟩) =
      .silent (.ok ⟨2 ^ 52, by decide, by decide⟩) :=
  (coin_roundTrip_iff ⟨2 ^ 52, by decide, by decide⟩ (by decide)).mpr (by decide)

/-- Not all of them do: `3355443200000019` Hao, just above `2^25` coins, do not. -/
theorem coin_roundTrip_fails :
    ¬∀ a : Amount, |a.hao| < 2 ^ 53 → ofNumber .coin a.toCoin = .silent (.ok a) := by
  intro h
  have h' := h ⟨3355443200000019, by decide, by decide⟩ (by decide)
  rw [ofNumber_toCoin_eq_iff (by decide), drift_eq_zero_iff (by decide)] at h'
  exact absurd h' (by decide)

end Coinage.Amount
