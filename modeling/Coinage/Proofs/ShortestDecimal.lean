import Coinage.Decimal.Shortest
import Coinage.Proofs.Rounded

/-!
# The search for the shortest decimal

Rounding keeps order, so the decimals that read back as a magnitude form one stretch of the line
around it. A grid that meets the stretch meets it in a neighbour of the magnitude, and trying the
two neighbours finds out whether it does.

Results.

* `onGrid?_isSome`: a grid with a hit is not passed over.
* `shortest_spec`: the shortest decimal reads back, on the coarsest grid with a hit.
* `ofDecimal?_shortest`, `shortest_digits_mod_ten`: it reads back also where it is zero, and in any
  other case its last digit is not zero.
* `shortest_digits_lt`: no decimal with fewer digits reads back.
-/
namespace Coinage

theorem Decimal.value_eq (x : Decimal) : x.value = x.digits * (10 : ℚ) ^ x.exponent := by
  rw [value, Rat.mkRat_eq_div, numerator, denominator]
  rcases Int.le_total 0 x.exponent with h | h
  · obtain ⟨k, hk⟩ := Int.eq_ofNat_of_zero_le h
    simp [hk]
  · obtain ⟨k, hk⟩ := Int.eq_ofNat_of_zero_le (Int.neg_nonneg_of_nonpos h)
    have he : x.exponent = -(k : ℤ) := by omega
    simp [he, div_eq_mul_inv]

theorem Decimal.value_nonneg (x : Decimal) : 0 ≤ x.value := by
  rw [value_eq]
  positivity

namespace Magnitude

theorem ofDecimal?_eq_some_iff {m : Magnitude} {x : Decimal} :
    ofDecimal? x = some m ↔ rankNear x.value = m.rank := by
  have hd : 0 < x.denominator := by unfold Decimal.denominator; positivity
  rw [ofDecimal?, nearest?, Decimal.value, Rat.mkRat_eq_div, Int.cast_natCast, rankNear_div _ hd]
  have := m.rank_lt
  cases m
  split
  · simp
  · simp only [false_iff, reduceCtorEq]
    omega

/-! ## The neighbours on a grid -/

variable {m : Magnitude} {x : Decimal}

/-- The finest grid holds every magnitude. -/
theorem value_eq_decimalUnits (m : Magnitude) :
    m.value = m.decimalUnits * (10 : ℚ) ^ (-1074 : ℤ) := by
  have hd : (m.decimalUnits : ℚ) = m.units * 5 ^ (1074 : ℤ) := by
    simp only [decimalUnits, Nat.cast_mul, Nat.cast_pow, Nat.cast_ofNat, zpow_ofNat]
  have e : (10 : ℚ) ^ (-1074 : ℤ) = (unitsInOne * 5 ^ (1074 : ℤ) : ℚ)⁻¹ := by
    rw [unitsInOne_cast, ← mul_zpow, zpow_neg]
    norm_num
  have h5 : (0 : ℚ) < 5 ^ (1074 : ℤ) := zpow_pos (by norm_num) _
  calc m.value = m.units / unitsInOne := value_eq m
    _ = (m.units * 5 ^ (1074 : ℤ)) / (unitsInOne * 5 ^ (1074 : ℤ)) :=
      (mul_div_mul_right _ _ h5.ne').symm
    _ = m.decimalUnits * 10 ^ (-1074 : ℤ) := by rw [hd, e, div_eq_mul_inv]

theorem value_on_grid (n k : ℕ) :
    (⟨n, k - 1074⟩ : Decimal).value = (n * 10 ^ k : ℕ) * (10 : ℚ) ^ (-1074 : ℤ) := by
  rw [Decimal.value_eq, sub_eq_add_neg, zpow_add₀ (by norm_num), zpow_natCast, Nat.cast_mul,
    Nat.cast_pow, Nat.cast_ofNat, mul_assoc]

theorem ten_zpow_pos (e : ℤ) : (0 : ℚ) < 10 ^ e := zpow_pos (by norm_num) e

theorem value_below_le (m : Magnitude) (k : ℕ) :
    (⟨m.decimalUnits / 10 ^ k, k - 1074⟩ : Decimal).value ≤ m.value := by
  rw [value_on_grid, value_eq_decimalUnits]
  exact mul_le_mul_of_nonneg_right (Nat.cast_le.mpr (Nat.div_mul_le_self _ _)) (ten_zpow_pos _).le

theorem value_le_above (m : Magnitude) (k : ℕ) :
    m.value ≤ (⟨m.decimalUnits / 10 ^ k + 1, k - 1074⟩ : Decimal).value := by
  rw [value_on_grid, value_eq_decimalUnits]
  have h : m.decimalUnits ≤ (m.decimalUnits / 10 ^ k + 1) * 10 ^ k := by
    rw [Nat.mul_comm]
    exact (Nat.lt_mul_div_succ _ (by positivity)).le
  exact mul_le_mul_of_nonneg_right (Nat.cast_le.mpr h) (ten_zpow_pos _).le

theorem rankNear_value (m : Magnitude) : rankNear m.value = m.rank := by
  rw [value_eq, rankNear_valueAt]

/-- Whatever lies between two numbers of one rank has that rank. -/
theorem rankNear_between {p q r : ℚ} (h0 : 0 ≤ p) (hpq : p ≤ q) (hqr : q ≤ r)
    (h : rankNear p = rankNear r) : rankNear q = rankNear r := by
  have h1 := rankNear_mono h0 hpq
  have h2 := rankNear_mono (h0.trans hpq) hqr
  omega

theorem value_le_value {i j : ℕ} (h : i ≤ j) (e : ℤ) :
    (⟨i, e⟩ : Decimal).value ≤ (⟨j, e⟩ : Decimal).value := by
  rw [Decimal.value_eq, Decimal.value_eq]
  exact mul_le_mul_of_nonneg_right (Nat.cast_le.mpr h) (ten_zpow_pos e).le

/-- Where a grid has a hit, a neighbour of the magnitude is one. -/
theorem neighbour_hits {k n : ℕ} (h : ofDecimal? ⟨n, k - 1074⟩ = some m) :
    ofDecimal? ⟨m.decimalUnits / 10 ^ k, k - 1074⟩ = some m ∨
      ofDecimal? ⟨m.decimalUnits / 10 ^ k + 1, k - 1074⟩ = some m := by
  simp only [ofDecimal?_eq_some_iff] at h ⊢
  have hm := rankNear_value m
  rcases Nat.lt_or_ge (m.decimalUnits / 10 ^ k) n with hn | hn
  · right
    rw [← h]
    have h0 : 0 ≤ m.value := value_eq m ▸ valueAt_nonneg _
    exact rankNear_between h0 (value_le_above m k) (value_le_value hn _) (hm.trans h.symm)
  · left
    rw [← hm]
    exact rankNear_between (Decimal.value_nonneg _) (value_le_value hn _) (value_below_le m k)
      (h.trans hm.symm)

/-! ## The search -/

theorem hit?_eq_some_iff {y : Decimal} : m.hit? x = some y ↔ ofDecimal? x = some m ∧ x = y := by
  unfold hit?
  split <;> simp_all

theorem nearer?_eq_some {b : Bool} {below above : Option Decimal}
    (h : nearer? b below above = some x) : below = some x ∨ above = some x := by
  unfold nearer? at h
  split at h <;> cases b <;> simp_all

theorem nearer?_isSome (b : Bool) (below above : Option Decimal) :
    (nearer? b below above).isSome = (below.isSome || above.isSome) := by
  cases below <;> cases above <;> rfl

theorem onGrid?_eq_some {k : ℕ} (h : m.onGrid? k = some x) :
    ofDecimal? x = some m ∧ x.exponent = k - 1074 := by
  rcases nearer?_eq_some h with h | h
  all_goals
    obtain ⟨hit, rfl⟩ := hit?_eq_some_iff.mp h
    exact ⟨hit, rfl⟩

/-- A grid with a hit is not passed over. -/
theorem onGrid?_isSome {k n : ℕ} (h : ofDecimal? ⟨n, k - 1074⟩ = some m) :
    (m.onGrid? k).isSome := by
  unfold onGrid?
  rw [nearer?_isSome, Bool.or_eq_true]
  apply (neighbour_hits h).imp
  all_goals
    intro hit
    rw [hit?_eq_some_iff.mpr ⟨hit, rfl⟩, Option.isSome_some]

theorem firstHit_spec (m : Magnitude) (k : ℕ) :
    ofDecimal? (m.firstHit k) = some m ∧ ∀ x, ofDecimal? x = some m →
      x.exponent ≤ k - 1074 → x.exponent ≤ (m.firstHit k).exponent := by
  induction k with
  | zero =>
    constructor
    · rw [ofDecimal?_eq_some_iff, firstHit, Decimal.value_eq, ← value_eq_decimalUnits,
        rankNear_value]
    · intro x _ hx
      rw [firstHit]
      simpa using hx
  | succ k ih =>
    rw [firstHit]
    cases h : m.onGrid? (k + 1) with
    | some x =>
      obtain ⟨hit, he⟩ := onGrid?_eq_some h
      exact ⟨hit, fun y _ hy => hy.trans he.ge⟩
    | none =>
      refine ⟨ih.1, ?_⟩
      intro x hit hx
      by_cases he : x.exponent = ((k + 1 : ℕ) : ℤ) - 1074
      · have hs := onGrid?_isSome (m := m) (k := k + 1) (n := x.digits) (by rw [← he]; exact hit)
        rw [h] at hs
        exact absurd hs (by decide)
      · exact ih.2 x hit (by omega)

/-! ## The coarsest grid -/

theorem digits_ne_zero (h0 : m.rank ≠ 0) (h : ofDecimal? x = some m) : x.digits ≠ 0 := by
  intro hx
  rw [ofDecimal?_eq_some_iff, Decimal.value_eq, hx, Nat.cast_zero, zero_mul, ← valueAt_zero,
    rankNear_valueAt] at h
  exact h0 h.symm

theorem rank_lt_rankNear_two_mul (h0 : m.rank ≠ 0) : m.rank < rankNear (2 * m.value) := by
  obtain ⟨k, t, ht, hk, e⟩ := exists_valueAt_eq m.rank
  have hpos : 0 < valueAt m.rank := valueAt_zero ▸ valueAt_strictMono (Nat.pos_of_ne_zero h0)
  have hr : Binary64.rounded (2 * m.value) = 2 * m.value := by
    refine Binary64.rounded_eq_self k (t + 1) ?_ ?_ (by omega)
    · rw [value_eq, e, zpow_add_one₀ two_ne_zero, Int.cast_natCast]; ring
    · rw [Nat.abs_cast]; exact_mod_cast hk.le
  rw [Binary64.rounded_of_nonneg (by rw [value_eq]; positivity), value_eq] at hr
  rw [← valueAt_strictMono.lt_iff_lt, value_eq, hr]
  linarith

theorem two_mul_le_ten_pow (n : ℕ) : 2 * n ≤ 10 ^ (n.log2 / 3 + 2) := by
  calc 2 * n ≤ 2 * 2 ^ (n.log2 + 1) := Nat.mul_le_mul_left 2 Nat.lt_log2_self.le
    _ ≤ 10 * 2 ^ (3 * (n.log2 / 3 + 1)) :=
      Nat.mul_le_mul (by omega) (Nat.pow_le_pow_right (by omega) (by omega))
    _ = 10 * 8 ^ (n.log2 / 3 + 1) := by rw [Nat.pow_mul]
    _ ≤ 10 * 10 ^ (n.log2 / 3 + 1) := Nat.mul_le_mul_left 10 (Nat.pow_le_pow_left (by omega) _)
    _ = 10 ^ (n.log2 / 3 + 2) := (Nat.pow_succ' ..).symm

/-- The search starts at a grid that is coarse enough. -/
theorem exponent_le_of_hit (h0 : m.rank ≠ 0) (h : ofDecimal? x = some m) :
    x.exponent ≤ ((m.decimalUnits.log2 / 3 + 1 : ℕ) : ℤ) - 1074 := by
  by_contra hgt
  have hd : 1 ≤ x.digits := Nat.one_le_iff_ne_zero.mpr (digits_ne_zero h0 h)
  have hv : 2 * m.value ≤ x.value := by
    have hU : ((2 * m.decimalUnits : ℕ) : ℚ) ≤ (10 ^ (m.decimalUnits.log2 / 3 + 2) : ℕ) :=
      Nat.cast_le.mpr (two_mul_le_ten_pow _)
    calc 2 * m.value
        = (2 * m.decimalUnits : ℕ) * (10 : ℚ) ^ (-1074 : ℤ) := by
          rw [value_eq_decimalUnits, Nat.cast_mul, Nat.cast_ofNat, mul_assoc]
      _ ≤ (10 ^ (m.decimalUnits.log2 / 3 + 2) : ℕ) * (10 : ℚ) ^ (-1074 : ℤ) :=
          mul_le_mul_of_nonneg_right hU (ten_zpow_pos _).le
      _ = (10 : ℚ) ^ (((m.decimalUnits.log2 / 3 + 2 : ℕ) : ℤ) - 1074) := by
          rw [sub_eq_add_neg, zpow_add₀ (by norm_num), zpow_natCast, Nat.cast_pow, Nat.cast_ofNat]
      _ ≤ 10 ^ x.exponent := zpow_le_zpow_right₀ (by norm_num) (by omega)
      _ ≤ x.value := by
          rw [Decimal.value_eq]
          exact le_mul_of_one_le_left (ten_zpow_pos _).le (by exact_mod_cast hd)
  have h2 := rankNear_mono (by rw [value_eq]; linarith [valueAt_nonneg m.rank]) hv
  rw [ofDecimal?_eq_some_iff.mp h] at h2
  exact absurd (rank_lt_rankNear_two_mul h0) h2.not_gt

/-- The shortest decimal reads back, and lies on the coarsest grid with a decimal that does. -/
theorem shortest_spec (h0 : m.rank ≠ 0) :
    ofDecimal? m.shortest = some m ∧
      ∀ x, ofDecimal? x = some m → x.exponent ≤ m.shortest.exponent := by
  obtain ⟨hit, coarsest⟩ := m.firstHit_spec (m.decimalUnits.log2 / 3 + 1)
  rw [shortest, if_neg h0]
  exact ⟨hit, fun x hx => coarsest x hx (exponent_le_of_hit h0 hx)⟩

/-- The last digit counts: without it the same number would lie on a coarser grid. -/
theorem shortest_digits_mod_ten (h0 : m.rank ≠ 0) : m.shortest.digits % 10 ≠ 0 := by
  obtain ⟨hit, coarsest⟩ := shortest_spec h0
  intro h
  have hv : (⟨m.shortest.digits / 10, m.shortest.exponent + 1⟩ : Decimal).value =
      m.shortest.value := by
    have hd : (m.shortest.digits : ℚ) = (m.shortest.digits / 10 : ℕ) * 10 := by
      exact_mod_cast (Nat.div_mul_cancel (Nat.dvd_of_mod_eq_zero h)).symm
    rw [Decimal.value_eq, Decimal.value_eq, hd, zpow_add_one₀ (by norm_num)]
    ring
  rw [ofDecimal?_eq_some_iff, ← hv, ← ofDecimal?_eq_some_iff] at hit
  have := coarsest _ hit
  simp only at this
  omega

theorem shortest_reduced (h : m.shortest.exponent < 0) : m.shortest.digits % 10 ≠ 0 := by
  refine shortest_digits_mod_ten fun h0 => ?_
  rw [shortest, if_pos h0] at h
  exact absurd h (by decide)

/-- The shortest decimal reads back, that of zero as well. -/
theorem ofDecimal?_shortest (m : Magnitude) : ofDecimal? m.shortest = some m := by
  by_cases h0 : m.rank = 0
  · rw [shortest, if_pos h0, ofDecimal?_eq_some_iff, Decimal.value_eq, Nat.cast_zero, zero_mul,
      ← valueAt_zero, rankNear_valueAt, h0]
  · exact (shortest_spec h0).1

theorem ofDecimal?_of_value_eq (h : x.value = m.shortest.value) : ofDecimal? x = some m := by
  rw [ofDecimal?_eq_some_iff, h, ← ofDecimal?_eq_some_iff]
  exact m.ofDecimal?_shortest

/-- No decimal with fewer digits reads back. -/
theorem shortest_digits_lt {n : ℕ} (h0 : m.rank ≠ 0) (h : ofDecimal? x = some m)
    (hx : x.digits < 10 ^ n) : m.shortest.digits < 10 ^ n := by
  obtain ⟨hit, coarsest⟩ := shortest_spec h0
  by_contra hge
  rw [not_lt] at hge
  -- the power of ten between the two reads back as well, on a coarser grid unless `n = 0`
  have hp : (⟨1, n + m.shortest.exponent⟩ : Decimal).value =
      (10 : ℚ) ^ n * 10 ^ m.shortest.exponent := by
    rw [Decimal.value_eq, zpow_add₀ (by norm_num), zpow_natCast, Nat.cast_one, one_mul]
  have hlo : x.value ≤ (⟨1, n + m.shortest.exponent⟩ : Decimal).value := by
    rw [hp, Decimal.value_eq]
    exact mul_le_mul (by exact_mod_cast hx.le) (zpow_le_zpow_right₀ (by norm_num) (coarsest x h))
      (ten_zpow_pos _).le (by positivity)
  have hhi : (⟨1, n + m.shortest.exponent⟩ : Decimal).value ≤ m.shortest.value := by
    rw [hp, m.shortest.value_eq]
    exact mul_le_mul_of_nonneg_right (by exact_mod_cast hge) (ten_zpow_pos _).le
  have hr := rankNear_between x.value_nonneg hlo hhi (by
    rw [ofDecimal?_eq_some_iff.mp h, ofDecimal?_eq_some_iff.mp hit])
  have hn := coarsest _ (ofDecimal?_eq_some_iff.mpr (hr.trans (ofDecimal?_eq_some_iff.mp hit)))
  simp only at hn
  have hn0 : n = 0 := by omega
  rw [hn0, pow_zero, Nat.lt_one_iff] at hx
  exact digits_ne_zero h0 h hx

end Magnitude

end Coinage
