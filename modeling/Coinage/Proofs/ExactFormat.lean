import Coinage.Amount.Format
import Coinage.Proofs.Expansion
import Coinage.Proofs.PowersOfTen

/-!
# Formatting shows the exact value

Below `2^52` Hao two different amounts have different quotients by one power of ten even after
rounding, as neighbouring quotients differ by more than their two errors. So the decimals that
read back as the rounded quotient hold one multiple of the last place only, the exact quotient,
and the shortest of them is the exact quotient without trailing zeros.

Results.

* `eq_of_rounded_div_eq`: the rounded quotient determines the amount.
* `shortest_quotient`: its shortest decimal is the exact quotient.
* `format_exact`: what is written for an amount is its decimal expansion.
-/
namespace Coinage

open Magnitude

variable {n k : ℕ}

/-! ## Quotients that stay apart -/

namespace Binary64

theorem abs_rounded_div_sub_le (hn : 0 < n) (hk : k ≤ 22) :
    |rounded (n / 10 ^ k) - n / 10 ^ k| ≤ n / 10 ^ k / 2 ^ 53 := by
  have h0 : |(n / 10 ^ k : ℚ)| = n / 10 ^ k := abs_of_nonneg (by positivity)
  have h1 : (1 : ℚ) ≤ n := by exact_mod_cast hn
  have h2 : (10 : ℚ) ^ k ≤ 10 ^ 22 := pow_le_pow_right₀ (by norm_num) hk
  have h3 : (2 : ℚ) ^ (-1022 : ℤ) ≤ n / 10 ^ k :=
    calc (2 : ℚ) ^ (-1022 : ℤ) ≤ 2 ^ (-74 : ℤ) := zpow_le_zpow_right₀ one_le_two (by omega)
      _ ≤ 1 / 10 ^ 22 := by norm_num
      _ ≤ n / 10 ^ k := div_le_div₀ (Nat.cast_nonneg n) h1 (by positivity) h2
  have h := abs_rounded_sub_le_div (q := n / 10 ^ k) (by rwa [h0])
  rwa [h0] at h

/-- Neighbouring quotients are rounded apart. -/
theorem rounded_div_lt_rounded_succ_div (hn : n < 2 ^ 52) (hk : k ≤ 22) :
    rounded (n / 10 ^ k) < rounded ((n + 1 : ℕ) / 10 ^ k) := by
  have hp : (0 : ℚ) < 1 / 10 ^ k := by positivity
  have e : ((n + 1 : ℕ) / 10 ^ k : ℚ) = n / 10 ^ k + 1 / 10 ^ k := by push_cast; ring
  have hle : (n / 10 ^ k : ℚ) ≤ (2 ^ 52 - 1) * (1 / 10 ^ k) := by
    rw [div_eq_mul_one_div]
    refine mul_le_mul_of_nonneg_right ?_ hp.le
    rw [le_sub_iff_add_le]
    exact_mod_cast hn
  have hhi := (abs_le.mp (abs_rounded_div_sub_le n.succ_pos hk)).1
  have hlo : rounded (n / 10 ^ k) ≤ n / 10 ^ k + n / 10 ^ k / 2 ^ 53 := by
    rcases Nat.eq_zero_or_pos n with rfl | h0
    · simp
    · linarith [(abs_le.mp (abs_rounded_div_sub_le h0 hk)).2]
  rw [Nat.succ_eq_add_one, e] at hhi
  rw [e]
  linarith

/-- The rounded quotient determines the number that is divided. -/
theorem eq_of_rounded_div_eq {n' : ℕ} (hn : n < 2 ^ 52) (hk : k ≤ 22)
    (h : rounded (n / 10 ^ k) = rounded (n' / 10 ^ k)) : n = n' := by
  have mono (i j : ℕ) (hij : i ≤ j) : rounded (i / 10 ^ k) ≤ rounded (j / 10 ^ k) :=
    rounded_mono (div_le_div_of_nonneg_right (Nat.cast_le.mpr hij) (by positivity))
  rcases Nat.lt_trichotomy n n' with hlt | rfl | hlt
  · exact absurd h ((rounded_div_lt_rounded_succ_div hn hk).trans_le (mono _ _ hlt)).ne
  · rfl
  · obtain ⟨m, rfl⟩ : ∃ m, n = m + 1 := ⟨n - 1, by omega⟩
    have hm := rounded_div_lt_rounded_succ_div (n := m) (by omega) hk
    exact absurd h ((mono n' m (by omega)).trans_lt hm).ne'

theorem eq_of_rankNear_div_eq {n' : ℕ} (hn : n < 2 ^ 52) (hk : k ≤ 22)
    (h : rankNear (n / 10 ^ k) = rankNear (n' / 10 ^ k)) : n = n' := by
  refine eq_of_rounded_div_eq hn hk ?_
  rw [rounded_of_nonneg (by positivity), rounded_of_nonneg (by positivity), h]

end Binary64

/-! ## The decimals of a quotient -/

namespace Magnitude

open Binary64

variable {m : Magnitude}

/-- The shortest decimal of a rounded quotient is the exact quotient. -/
theorem shortest_quotient (hn : n < 2 ^ 52) (hk : k ≤ 22) (hm : m.rank = rankNear (n / 10 ^ k)) :
    m.shortest.value = n / 10 ^ k := by
  by_cases h0 : m.rank = 0
  · have hz : rankNear ((0 : ℕ) / 10 ^ k) = 0 := by
      rw [Nat.cast_zero, zero_div, ← valueAt_zero, rankNear_valueAt]
    obtain rfl : n = 0 := eq_of_rankNear_div_eq hn hk (by rw [hz, ← hm, h0])
    rw [shortest, if_pos h0, Decimal.value_eq]
    simp
  · obtain ⟨hit, coarsest⟩ := shortest_spec h0
    have hq : (⟨n, -k⟩ : Decimal).value = n / 10 ^ k := by
      rw [Decimal.value_eq, zpow_neg, zpow_natCast, div_eq_mul_inv]
    have he := coarsest ⟨n, -k⟩ (by rw [ofDecimal?_eq_some_iff, hq, hm])
    -- the shortest decimal is a whole number of the last places, too
    obtain ⟨j, hj⟩ : ∃ j : ℕ, m.shortest.exponent = j + -(k : ℤ) :=
      ⟨(m.shortest.exponent + k).toNat, by simp only at he; omega⟩
    have hv : m.shortest.value = (m.shortest.digits * 10 ^ j : ℕ) / 10 ^ k := by
      rw [Decimal.value_eq, hj, zpow_add₀ (by norm_num), zpow_neg, zpow_natCast, zpow_natCast]
      push_cast
      ring
    rw [ofDecimal?_eq_some_iff, hv, hm] at hit
    rw [hv, eq_of_rankNear_div_eq hn hk hit.symm]

theorem withPlaces_eq (m : Magnitude) (k : ℕ) :
    m.withPlaces k = ⟨wholeNear (m.value * 10 ^ k), -k⟩ := by
  have e : m.value * 10 ^ k = (m.units * 10 ^ k : ℕ) / unitsInOne := by
    rw [Magnitude.value, Rat.mkRat_eq_div]
    push_cast
    ring
  rw [e, wholeNear_div _ unitsInOne_pos]
  rfl

/-- A whole number is kept by rounding to no places. -/
theorem withPlaces_zero (hn : n ≤ 2 ^ 53) (hm : m.rank = rankNear n) :
    m.withPlaces 0 = ⟨n, 0⟩ := by
  have hv : m.value = n := by
    rw [value_eq, hm, ← rounded_of_nonneg (Nat.cast_nonneg n), rounded_natCast hn]
  rw [withPlaces_eq, hv, pow_zero, mul_one, wholeNear_natCast]
  rfl

end Magnitude

/-! ## What is written for an amount -/

theorem Binary64.render_finite (layout : Magnitude → List Char) (s : Bool) (m : Magnitude) :
    render layout (finite s m) = String.ofList (Decimal.sign s ++ layout m) := by
  cases s <;> rfl

namespace Amount

open Binary64

variable {a : Amount} {u : Denomination}

/-! ## Places -/

theorem places?_of_le (h : u.exponent.value ≤ -8) :
    places? u = some (-(u.exponent.value + 8)).toNat := by
  unfold places? baseExponent
  exact if_pos (by omega)

theorem places?_of_lt (h : -8 < u.exponent.value) : places? u = none := by
  unfold places? baseExponent
  exact if_neg (by omega)

/-- Places beyond those that are rounded to are made up with zeros. -/
theorem numeral_of_places {k : ℕ} (h : places? u = some k) (s : Bool) (m : Magnitude) :
    numeral (finite s m) u = String.ofList (Decimal.sign s ++
      (m.withPlaces (min k maxPlaces)).plain ++ List.replicate (k - min k maxPlaces) '0') := by
  unfold numeral
  simp [h, isFinite, fixed, render_finite, String.append_assoc]

theorem numeral_of_none (h : places? u = none) (x : Binary64) : numeral x u = x.text := by
  unfold numeral
  simp [h]

theorem numeral_below (hu : u.exponent.value + 8 = -(k : ℤ)) (hk : k ≤ maxPlaces) (s : Bool)
    (m : Magnitude) :
    numeral (finite s m) u = String.ofList (Decimal.sign s ++ (m.withPlaces k).plain) := by
  have hp : places? u = some k := by
    rw [places?_of_le (by omega), hu]
    simp
  rw [numeral_of_places hp, Nat.min_eq_left hk, Nat.sub_self, List.replicate_zero, List.append_nil]

/-! ## From the Hao up -/

theorem abs_hao_div (a : Amount) (k : ℕ) :
    |(a.hao / 10 ^ k : ℚ)| = a.hao.natAbs / 10 ^ k := by
  rw [abs_div, abs_of_pos (show (0 : ℚ) < 10 ^ k by positivity), Nat.cast_natAbs, Int.cast_abs]

/-- The quotient as a finite number; zero has no sign. -/
theorem toUnit_eq_finite (ha : |a.hao| ≤ 2 ^ 53) (hu : u.exponent.value + 8 = k) (hk : k ≤ 22) :
    ∃ m, a.toUnit u = finite ((a.hao / 10 ^ k : ℚ) < 0) m ∧
      m.rank = rankNear (a.hao.natAbs / 10 ^ k) := by
  have hf : Fits (a.hao / 10 ^ k : ℚ) :=
    fits_of_abs_le 63 (abs_div_ten_pow_le a.abs_hao_le k) (by omega)
  have hs : (if (a.hao / 10 ^ k : ℚ) = 0 then false else decide ((a.hao / 10 ^ k : ℚ) < 0)) =
      decide ((a.hao / 10 ^ k : ℚ) < 0) := by
    by_cases h0 : (a.hao / 10 ^ k : ℚ) = 0 <;> simp [h0]
  refine ⟨hf.magnitude, ?_, ?_⟩
  · rw [toUnit_eq a hu hk, rounded_intCast ha, Nat.cast_pow, Nat.cast_ofNat, ofRat_eq false hf, hs]
  · rw [← abs_hao_div, rankNear_abs]
    rfl

/-- At the Hao a number is rounded to no places, above it the shortest numeral is written. -/
theorem numeral_finite (s : Bool) (m : Magnitude) (hu : u.exponent.value + 8 = k) :
    numeral (finite s m) u =
      String.ofList (Decimal.sign s ++ (if k = 0 then m.withPlaces 0 else m.shortest).plain) := by
  by_cases hk : k = 0
  · rw [if_pos hk]
    exact numeral_below (by rw [hu, hk]; rfl) (Nat.zero_le _) s m
  · rw [if_neg hk, numeral_of_none (places?_of_lt (by omega)), text, render_finite]

theorem format_isExpansion (ha : |a.hao| < 2 ^ 52) (hu : u.exponent.value + 8 = k)
    (hk : k ≤ 22) :
    ∃ text, Decimal.IsExpansion (a.hao / 10 ^ k) text ∧
      a.format u = String.ofList text ++ " " ++ u.label := by
  obtain ⟨m, hx, hm⟩ := toUnit_eq_finite (a := a) (by omega) hu hk
  have habs : |a.hao| = a.hao.natAbs := Int.abs_eq_natAbs a.hao
  have hq := abs_hao_div a k
  refine ⟨_, ?_, by rw [format, hx, numeral_finite _ m hu]⟩
  split
  next h0 =>
    subst h0
    rw [pow_zero, div_one] at hm
    rw [withPlaces_zero (by omega) hm]
    exact Decimal.plain_isExpansion (by rw [hq, Decimal.value_eq]; simp) (by simp)
  next h0 =>
    have hv := shortest_quotient (n := a.hao.natAbs) (by omega) hk hm
    exact Decimal.plain_isExpansion (hv.trans hq.symm) shortest_reduced

/-- For an amount below `2^52` Hao, in a denomination from the Hao up to `10^14` coins, the decimal
expansion of its value is written in front of a blank and the label; so for the amount in coins. -/
theorem format_exact (a : Amount) (ha : |a.hao| < 2 ^ 52) :
    (∀ u : Denomination, -8 ≤ u.exponent.value → u.exponent.value ≤ 14 →
      ∃ text, Decimal.IsExpansion (a.hao / 10 ^ (u.exponent.value + 8)) text ∧
        a.format u = String.ofList text ++ " " ++ u.label) ∧
    ∃ text, Decimal.IsExpansion (a.hao / 10 ^ 8) text ∧
      a.display = String.ofList text ++ " OMC" := by
  constructor
  · intro u hlo hhi
    obtain ⟨k, hk⟩ : ∃ k : ℕ, u.exponent.value + 8 = k := ⟨_, (Int.toNat_of_nonneg (by omega)).symm⟩
    rw [hk, zpow_natCast]
    exact format_isExpansion ha hk (by omega)
  · obtain ⟨text, ht, hf⟩ := format_isExpansion (u := .coin) (k := 8) ha rfl (by omega)
    exact ⟨text, ht, hf.trans (String.append_assoc ..)⟩

theorem format_exact_three_halves :
    format ⟨-150000000, by decide, by decide⟩ .kilo = "-0.0015 kOMC" ∧
      display ⟨-150000000, by decide, by decide⟩ = "-1.5 OMC" := by
  obtain ⟨hf, text, ht, hd⟩ := format_exact ⟨-150000000, by decide, by decide⟩ (by decide)
  obtain ⟨text', ht', hf⟩ := hf .kilo (by decide) (by decide)
  have h := Decimal.plain_isExpansion (q := (-150000000 : ℤ) / 10 ^ 8) (x := ⟨15, -1⟩)
    (by rw [Decimal.value_eq]; norm_num [abs_div]) (by decide)
  have h' := Decimal.plain_isExpansion (q := (-150000000 : ℤ) / 10 ^ (3 + 8 : ℤ)) (x := ⟨15, -4⟩)
    (by rw [Decimal.value_eq]; norm_num [abs_div]) (by decide)
  rw [decide_eq_true (by norm_num)] at h h'
  constructor
  · rw [hf, ht'.unique h']; rfl
  · rw [hd, ht.unique h]; rfl

end Amount

end Coinage
