import Coinage.Proofs.NumberOrder
import Coinage.Proofs.RelativeError

/-!
# Powers of ten from zero to infinity

A power of ten that is computed in binary64 arithmetic is a finite number up to `10^308` and
infinite beyond, and its reciprocal is not zero down to `10^-308` and zero beyond. In between the
powers are ordered like their exponents: each is at least half of the exact power and at most twice
as much, and the next exact power is ten times as great.

The upper bound is that of the counted roundings. For a lower bound along any number of squarings an
overflow does no harm, so that infinities can be let through.

Results.

* `reaches_pow_ten`: a power that is finite loses at most one rounding for each factor.
* `pow_ten_eq_infinite`, `pow_ten_isFinite`: where the powers end.
* `pow_ten_mono`, `powerOfTen_mono`: the order of the powers.
* `powerOfTen_eq_zero`, `exists_powerOfTen_eq`, `powerOfTen_eq_infinite`: the three ranges.
-/
namespace Coinage.Binary64

open Magnitude

/-! ## Lower bounds that allow for overflow -/

section Reaches

variable {x y : Binary64} {p q : ℚ} {m n : ℕ}

theorem AtLeastOne.one_le_value (h : AtLeastOne x) (hf : x.isFinite = true) : 1 ≤ x.value := by
  rcases h with rfl | ⟨m, rfl, hm⟩
  · cases hf
  · exact hm

/-- A product is infinite if a factor is, as long as none is below one. -/
theorem AtLeastOne.isFinite_of_mul (hx : AtLeastOne x) (hy : AtLeastOne y)
    (hf : (x * y).isFinite = true) : x.isFinite = true ∧ y.isFinite = true := by
  rcases hx with rfl | ⟨m, rfl, hm⟩ <;> rcases hy with rfl | ⟨n, rfl, hn⟩
  · cases hf
  · rw [infinite_mul_finite, if_neg (rank_ne_zero_of_one_le hn)] at hf
    cases hf
  · rw [finite_mul_infinite, if_neg (rank_ne_zero_of_one_le hm)] at hf
    cases hf
  · exact ⟨rfl, rfl⟩

/-- At least one, and at most `m` roundings below `q` unless infinite. -/
structure Reaches (m : ℕ) (x : Binary64) (q : ℚ) : Prop where
  atLeastOne : AtLeastOne x
  le_value : x.isFinite = true → shrink ^ m * q ≤ x.value

theorem Reaches.mul (hx : Reaches m x p) (hy : Reaches n y q) (hq : 0 ≤ q) :
    Reaches (m + n + 1) (x * y) (p * q) where
  atLeastOne := hx.atLeastOne.mul hy.atLeastOne
  le_value := by
    intro hf
    obtain ⟨fx, fy⟩ := hx.atLeastOne.isFinite_of_mul hy.atLeastOne hf
    obtain ⟨z, e⟩ := (denotes_value fx).exists_mul_eq (denotes_value fy)
    have one_le : 1 ≤ x.value * y.value := one_le_mul_of_one_le_of_one_le
      (hx.atLeastOne.one_le_value fx) (hy.atLeastOne.one_le_value fy)
    have rounding : Within 1 (rounded (x.value * y.value)) (x.value * y.value) :=
      .of_rounded ((zpow_le_one_of_nonpos₀ one_le_two (by omega)).trans one_le)
    have factors := shrink_pow_mul_le (hx.le_value fx) (hy.le_value fy) hq
      (zero_le_one.trans (hx.atLeastOne.one_le_value fx))
    rw [e] at hf ⊢
    rw [(denotes_ofRat z (fits_of_isFinite hf)).2]
    calc shrink ^ (m + n + 1) * (p * q) = shrink ^ 1 * (shrink ^ (m + n) * (p * q)) := by ring
      _ ≤ shrink ^ 1 * (x.value * y.value) :=
          mul_le_mul_of_nonneg_left factors (shrink_pow_pos 1).le
      _ ≤ rounded (x.value * y.value) := rounding.le_left

/-- One rounding for each factor. -/
theorem reaches_pow_ten (n : ℕ) : Reaches n (pow (ofInt 10) n) (10 ^ n) := by
  have one : Reaches 0 (ofInt 1) (10 ^ 0) :=
    ⟨atLeastOne_ofInt (n := 1) le_rfl, fun _ => by simp [denotes_one.2]⟩
  have ten : Reaches 0 (ofInt 10) (10 ^ 1) :=
    ⟨atLeastOne_ofInt (n := 10) (by omega),
      fun _ => by simp [(denotes_ofInt_of_abs_le (n := 10) (by decide)).2]⟩
  have power := powFrom_induction (P := fun c i x => Reaches c x (10 ^ i))
    (fun hx hy => by rw [pow_add]; exact hx.mul hy (by positivity)) n one ten
  simp only [zero_add, one_mul] at power
  exact power

end Reaches

/-! ## Where the powers end -/

section Powers

variable {m n : ℕ}

theorem two_pow_le_ten_pow : (2 : ℚ) ^ 1025 ≤ 10 ^ 309 :=
  calc (2 : ℚ) ^ 1025 ≤ 2 ^ (93 * 11 + 3) := pow_le_pow_right₀ one_le_two (by omega)
    _ = (2 ^ 93) ^ 11 * 2 ^ 3 := by rw [pow_add, pow_mul]
    _ ≤ (10 ^ 28) ^ 11 * 10 := mul_le_mul (pow_le_pow_left₀ (by norm_num) (by norm_num) 11)
        (by norm_num) (by norm_num) (by positivity)
    _ = 10 ^ 309 := by rw [← pow_mul, ← pow_succ]

theorem value_lt_two_pow (m : Magnitude) : m.value < 2 ^ 1024 := by
  have hm := m.rank_lt
  have e : valueAt (2046 * 2 ^ 52 + 2 ^ 52) = 2 ^ (1024 : ℤ) := valueAt_binade_start 2046
  rw [value_eq, ← zpow_ofNat, ← e]
  exact valueAt_strictMono (by omega)

theorem pow_ten_eq_infinite (h : 309 ≤ n) : pow (ofInt 10) n = infinite false := by
  obtain ⟨least, bound⟩ := reaches_pow_ten n
  rcases least with e | ⟨m, e, -⟩
  · exact e
  · -- a finite power would be beyond the greatest number
    have hle := bound (by rw [e]; rfl)
    rw [e] at hle
    have far : (2 : ℚ) ^ 1024 ≤ shrink ^ n * 10 ^ n :=
      calc (2 : ℚ) ^ 1024 = 1 / 2 * (2 * 2 ^ 1024) := by rw [← mul_assoc]; norm_num only [one_mul]
        _ = 1 / 2 * 2 ^ 1025 := by rw [← pow_succ']
        _ ≤ shrink ^ 309 * 10 ^ 309 := mul_le_mul (half_le_shrink_pow le_rfl) two_pow_le_ten_pow
            (by positivity) (shrink_pow_pos 309).le
        _ = (shrink * 10) ^ 309 := (mul_pow _ _ _).symm
        _ ≤ (shrink * 10) ^ n := pow_le_pow_right₀ (by norm_num [shrink]) h
        _ = shrink ^ n * 10 ^ n := mul_pow _ _ _
    exact absurd (far.trans hle) (value_lt_two_pow m).not_ge

theorem pow_ten_isFinite (h : n ≤ 308) : (pow (ofInt 10) n).isFinite = true := by
  rcases Nat.lt_or_eq_of_le h with hlt | rfl
  · exact (approximates_pow_ten (by omega)).1
  · decide +kernel

theorem exists_pow_ten_eq (h : n ≤ 308) : ∃ m, pow (ofInt 10) n = finite false m ∧ m.rank ≠ 0 := by
  rcases atLeastOne_pow_ten n with power | ⟨m, power, hm⟩
  · have hf := pow_ten_isFinite h
    rw [power] at hf
    cases hf
  · exact ⟨m, power, rank_ne_zero_of_one_le hm⟩

/-- A power is less than twice the exact one, and the next one more than half of ten times that. -/
theorem pow_ten_mono (h : m ≤ n) : pow (ofInt 10) m ≤ pow (ofInt 10) n := by
  have number (k : ℕ) : pow (ofInt 10) k ≠ nan := (atLeastOne_pow_ten k).hasSign.ne_nan
  rcases Nat.lt_or_ge 308 n with hn | hn
  · rw [pow_ten_eq_infinite hn]
    exact le_infinite (number m)
  rcases Nat.lt_or_eq_of_le h with hlt | rfl
  · obtain ⟨fm, bound⟩ := approximates_pow_ten (n := m) (by omega)
    have fn := pow_ten_isFinite hn
    refine (denotes_value fm).le (denotes_value fn) ?_
    calc (pow (ofInt 10) m).value ≤ 2 * 10 ^ m := bound.le_two_mul (by omega)
      _ ≤ 1 / 2 * 10 ^ (m + 1) := by rw [pow_succ]; linarith [show (0 : ℚ) < 10 ^ m by positivity]
      _ ≤ shrink ^ n * 10 ^ n := mul_le_mul (half_le_shrink_pow (by omega))
          (pow_le_pow_right₀ (by norm_num) hlt) (by positivity) (shrink_pow_pos n).le
      _ ≤ (pow (ofInt 10) n).value := (reaches_pow_ten n).le_value fn
  · exact le_refl_of_ne_nan (number m)

end Powers

/-! ## Reciprocals -/

section Reciprocals

variable {x : Binary64} {p : ℚ} {e e' : ℤ}

/-- Only an infinite divisor makes the quotient of a number from one on a zero. -/
theorem Denotes.not_denotes_div_zero (hx : Denotes x p) (hp : 1 ≤ |p|) (n : Magnitude) :
    ¬Denotes (x / finite false n) 0 := by
  intro hzero
  have hne : p ≠ 0 := abs_pos.mp (one_pos.trans_le hp)
  by_cases hn : n.rank = 0
  · have hf := hzero.1
    rw [hx.div_zero hn, if_neg hne] at hf
    cases hf
  · obtain ⟨z, quotient⟩ := hx.exists_div_finite_eq hn
    rw [quotient] at hzero
    have tiny : rounded (2 ^ (-1024 : ℤ)) = 2 ^ (-1024 : ℤ) :=
      rounded_eq_self 1 (-1024) (by simp) (by decide) (by omega)
    have far : (2 : ℚ) ^ (-1024 : ℤ) ≤ |p / n.value| := by
      rw [abs_div, abs_of_pos (value_pos hn), zpow_neg, zpow_ofNat, ← one_div]
      exact div_le_div₀ (zero_le_one.trans hp) hp (value_pos hn) (value_lt_two_pow n).le
    have hle := le_abs_rounded tiny far
    rw [← (denotes_ofRat z (fits_of_isFinite hzero.1)).2, hzero.2, abs_zero] at hle
    exact hle.not_gt (by positivity)

theorem powerOfTen_neg (n : ℕ) : powerOfTen (-n) = ofInt 1 / pow (ofInt 10) n := by
  cases n with
  | zero => decide +kernel
  | succ n => rfl

/-- The powers of ten are ordered like their exponents, from zero to infinity. -/
theorem powerOfTen_mono (h : e ≤ e') : powerOfTen e ≤ powerOfTen e' := by
  have reciprocals {m n : ℕ} (h : m ≤ n) : powerOfTen (-n) ≤ powerOfTen (-m) := by
    rw [powerOfTen_neg, powerOfTen_neg]
    exact div_le_div_of_divisor_le denotes_one one_pos (atLeastOne_pow_ten m).hasSign
      (atLeastOne_pow_ten n).hasSign (pow_ten_mono h)
  obtain ⟨m, rfl | rfl⟩ := e.eq_nat_or_neg <;> obtain ⟨n, rfl | rfl⟩ := e'.eq_nat_or_neg
  · exact pow_ten_mono (by omega)
  · obtain ⟨rfl, rfl⟩ : m = 0 ∧ n = 0 := by omega
    exact pow_ten_mono le_rfl
  · exact Binary64.le_trans (reciprocals (Nat.zero_le m)) (pow_ten_mono (Nat.zero_le n))
  · exact reciprocals (by omega)

theorem powerOfTen_eq_infinite (h : 309 ≤ e) : powerOfTen e = infinite false := by
  obtain ⟨n, rfl⟩ := Int.eq_ofNat_of_zero_le (show 0 ≤ e by omega)
  exact pow_ten_eq_infinite (by omega)

theorem powerOfTen_eq_zero (h : e ≤ -309) : powerOfTen e = finite false .zero := by
  obtain ⟨n, hn⟩ := Int.eq_ofNat_of_zero_le (show 0 ≤ -e by omega)
  rw [show e = -n by omega, powerOfTen_neg, pow_ten_eq_infinite (by omega)]
  decide +kernel

/-- In between neither end is reached. -/
theorem exists_powerOfTen_eq (hlo : -308 ≤ e) (hhi : e ≤ 308) :
    ∃ m, powerOfTen e = finite false m ∧ m.rank ≠ 0 := by
  obtain ⟨n, rfl | rfl⟩ := e.eq_nat_or_neg
  · exact exists_pow_ten_eq (by omega)
  · obtain ⟨m, power, -⟩ := exists_pow_ten_eq (n := n) (by omega)
    have one_le : |(1 : ℚ)| ≤ 2 ^ 63 := by norm_num
    have hf := isFinite_div denotes_one one_le (atLeastOne_pow_ten n)
    have sign := powerOfTen_hasSign (-n)
    rw [powerOfTen_neg] at sign ⊢
    rcases sign with quotient | ⟨k, quotient⟩
    · rw [quotient] at hf
      cases hf
    · refine ⟨k, quotient, fun hk => ?_⟩
      refine denotes_one.not_denotes_div_zero (by simp) m ?_
      rw [← power, quotient]
      exact denotes_zero_iff.mpr hk

end Reciprocals

end Coinage.Binary64
