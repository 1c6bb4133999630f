import Coinage.Amount.Conversion
import Coinage.Proofs.Operations

/-!
# Exact powers of ten

Up to `10^22` a power of ten has a significand of 53 bits, so every product on the way to it is
exact and repeated squaring ends in the number itself. In the denominations from the Hao up to
`10^14` coins, dividing by the Hao in a unit is therefore one single rounding.

Results.

* `pow_ten`: the powers are the exact ones.
* `toUnit_eq`: an amount in such a denomination is the rounded quotient, with its sign.
* `denotes_toUnit`: that quotient is always a number.
-/
namespace Coinage

namespace Binary64

open Magnitude

theorem abs_div_ten_pow_le {q b : ℚ} (h : |q| ≤ b) (k : ℕ) : |q / 10 ^ k| ≤ b := by
  rw [abs_div, abs_of_pos (show (0 : ℚ) < 10 ^ k by positivity)]
  exact (div_le_self (abs_nonneg q) (one_le_pow₀ (by norm_num))).trans h

theorem fits_natCast {n : ℕ} (i : ℕ) (h : n ≤ 2 ^ i) (hi : i ≤ 1023) : Fits (n : ℚ) :=
  fits_of_abs_le i (by rw [Nat.abs_cast]; exact_mod_cast h) hi

theorem ofInt_natCast {n : ℕ} (h : Fits (n : ℚ)) : ofInt n = finite false h.magnitude := by
  have e : ofInt n = ofRat false (n : ℚ) := by unfold ofInt; norm_num
  rw [e, ofRat_eq false h]
  simp

/-- Whole numbers that are binary64 values are multiplied with one rounding. -/
theorem ofInt_mul_ofInt {m n : ℕ} (hm : rounded m = m) (hn : rounded n = n) (fm : Fits (m : ℚ))
    (fn : Fits (n : ℚ)) : ofInt m * ofInt n = ofInt (m * n : ℕ) := by
  have vm := (denotes_ofInt (n := m) (by exact_mod_cast fm)).2
  have vn := (denotes_ofInt (n := n) (by exact_mod_cast fn)).2
  rw [Int.cast_natCast, hm] at vm
  rw [Int.cast_natCast, hn] at vn
  rw [ofInt_natCast fm, ofInt_natCast fn] at *
  have e : finite false fm.magnitude * finite false fn.magnitude =
      ofRat (false ^^ false)
        ((finite false fm.magnitude).value * (finite false fn.magnitude).value) := rfl
  rw [e, vm, vn, Bool.xor_false, ofInt]
  push_cast
  rfl

theorem rounded_ten_pow {i : ℕ} (hi : i ≤ 22) : rounded ((10 ^ i : ℕ) : ℚ) = (10 ^ i : ℕ) := by
  have h5 : (5 : ℤ) ^ i ≤ 5 ^ 22 := pow_le_pow_right₀ (by omega) hi
  refine rounded_eq_self (5 ^ i) i ?_ ?_ (by omega)
  · push_cast
    rw [zpow_natCast, ← mul_pow]; norm_num
  · rw [abs_of_nonneg (by positivity)]
    exact h5.trans (by omega)

theorem fits_ten_pow {i : ℕ} (hi : i ≤ 22) : Fits ((10 ^ i : ℕ) : ℚ) :=
  fits_natCast 88 ((Nat.pow_le_pow_right (by omega) hi).trans (by omega)) (by omega)

theorem ofInt_ten_pow_mul {i j : ℕ} (hi : i ≤ 22) (hj : j ≤ 22) :
    ofInt (10 ^ i : ℕ) * ofInt (10 ^ j : ℕ) = ofInt (10 ^ (i + j) : ℕ) := by
  rw [ofInt_mul_ofInt (rounded_ten_pow hi) (rounded_ten_pow hj) (fits_ten_pow hi) (fits_ten_pow hj),
    Nat.pow_add]

/-- What a product takes over from its factors, the exponents added and the roundings counted, holds
along the binary digits of the exponent. A square doubles the count of its base and adds one. -/
theorem powFrom_induction {P : ℕ → ℕ → Binary64 → Prop}
    (mul : ∀ {c b i j x y}, P c i x → P b j y → P (c + b + 1) (i + j) (x * y))
    {acc base : Binary64} {c b i j : ℕ} (n : ℕ) (ha : P c i acc) (hb : P b j base) :
    P (c + (b + 1) * n) (i + j * n) (powFrom acc base n) := by
  induction n using Nat.strongRecOn generalizing acc base c b i j with
  | ind n ih =>
    rw [powFrom]
    split
    · next h0 => rwa [h0, mul_zero, mul_zero, add_zero, add_zero]
    · next h0 =>
      have digit : P (c + (b + 1) * (n % 2)) (i + j * (n % 2))
          (if n % 2 = 1 then acc * base else acc) := by
        split
        · next h1 =>
          rw [h1, mul_one, mul_one]
          exact mul ha hb
        · next h1 => rwa [show n % 2 = 0 by omega, mul_zero, mul_zero, add_zero, add_zero]
      have count : c + (b + 1) * (n % 2) + (b + b + 1 + 1) * (n / 2) = c + (b + 1) * n := by
        conv_rhs => rw [← Nat.div_add_mod n 2]
        ring
      have exponent : i + j * (n % 2) + (j + j) * (n / 2) = i + j * n := by
        conv_rhs => rw [← Nat.div_add_mod n 2]
        ring
      have h := ih (n / 2) (by omega) digit (mul hb hb)
      rwa [count, exponent] at h

/-- Up to `10^22` the accumulated power and the squares stay exact. -/
theorem powFrom_ten (n i j : ℕ) (h : i + j * n ≤ 22) :
    powFrom (ofInt (10 ^ i : ℕ)) (ofInt (10 ^ j : ℕ)) n = ofInt (10 ^ (i + j * n) : ℕ) := by
  refine powFrom_induction (P := fun _ i x => i ≤ 22 → x = ofInt (10 ^ i : ℕ)) (c := 0) (b := 0)
    ?_ n (fun _ => rfl) (fun _ => rfl) h
  intro _ _ i j x y hx hy hij
  rw [hx (by omega), hy (by omega), ofInt_ten_pow_mul (by omega) (by omega)]

theorem pow_ten {n : ℕ} (h : n ≤ 22) : pow (ofInt 10) n = ofInt (10 ^ n : ℕ) := by
  have := powFrom_ten n 0 1 (by omega)
  rwa [Nat.pow_zero, Nat.pow_one, Nat.zero_add, Nat.one_mul] at this

theorem ofRat_eq_ofRat {q : ℚ} (h : q ≠ 0) (z z' : Bool) : ofRat z q = ofRat z' q := by
  simp only [ofRat, if_neg h]

/-- One is a binary64 value, so nothing from there on is rounded below it. -/
theorem one_le_rounded {q : ℚ} (h : 1 ≤ q) : 1 ≤ rounded q := by
  rw [← rounded_one]
  exact rounded_mono h

theorem eq_zero_of_rounded_eq_zero {n : ℤ} (h : rounded n = 0) : n = 0 := by
  by_contra hne
  have hle := le_abs_rounded (q := n) rounded_one (by exact_mod_cast Int.one_le_abs hne)
  rw [h, abs_zero] at hle
  exact hle.not_gt one_pos

/-- A quotient by a positive number is rounded with the sign of the dividend. -/
theorem ofInt_div_ofInt {n : ℤ} {d : ℕ} (hd : 0 < d) (er : rounded d = d) (fn : Fits (n : ℚ))
    (fd : Fits (d : ℚ)) : ofInt n / ofInt d = ofRat false (rounded n / d) := by
  have hn := denotes_ofInt fn
  have hdd : Denotes (ofInt d) d := by
    have := denotes_ofInt (n := d) (by exact_mod_cast fd)
    rwa [Int.cast_natCast, er] at this
  have hd' : (d : ℚ) ≠ 0 := by exact_mod_cast hd.ne'
  rcases eq_or_ne (rounded n / d) 0 with h | h
  · -- zero is the one result whose sign is not that of the exact quotient
    obtain rfl := eq_zero_of_rounded_eq_zero ((div_eq_zero_iff.mp h).resolve_right hd')
    have f0 : Fits ((0 : ℕ) : ℚ) := fits_natCast 0 (by omega) (by omega)
    have e0 : ofInt 0 = finite false f0.magnitude := ofInt_natCast f0
    have ed := ofInt_natCast fd
    rw [ed] at hdd ⊢
    rw [e0] at hn ⊢
    have e : finite false f0.magnitude / finite false fd.magnitude = ofRat (false ^^ false)
        ((finite false f0.magnitude).value / (finite false fd.magnitude).value) :=
      if_neg (hdd.rank_ne_zero hd')
    rw [e, hn.2, hdd.2, Bool.xor_false]
  · obtain ⟨z, e⟩ := hn.exists_div_eq hdd hd'
    rw [e, ofRat_eq_ofRat h z false]

end Binary64

namespace Amount

open Binary64

theorem abs_hao_le (a : Amount) : |(a.hao : ℚ)| ≤ 2 ^ 63 := by
  have h : |a.hao| ≤ 2 ^ 63 := abs_le.mpr ⟨a.lower, by have := a.upper; omega⟩
  exact_mod_cast h

theorem fits_hao (a : Amount) : Fits (a.hao : ℚ) := fits_of_abs_le 63 a.abs_hao_le (by omega)

theorem abs_rounded_hao_le (a : Amount) : |rounded a.hao| ≤ 2 ^ 63 :=
  abs_rounded_le (rounded_two_pow 63) a.abs_hao_le

theorem haoPer_eq {u : Denomination} {k : ℕ} (hk : u.exponent.value + 8 = k) (h : k ≤ 22) :
    haoPer u = ofInt (10 ^ k : ℕ) := by
  unfold haoPer baseExponent
  rw [hk]
  exact pow_ten h

/-- From the Hao up to `10^14` coins an amount is shown as the quotient of its binary64 value,
rounded once. -/
theorem toUnit_eq (a : Amount) {u : Denomination} {k : ℕ} (hk : u.exponent.value + 8 = k)
    (h : k ≤ 22) : a.toUnit u = ofRat false (rounded a.hao / (10 ^ k : ℕ)) := by
  rw [toUnit, haoPer_eq hk h]
  exact ofInt_div_ofInt (by positivity) (rounded_ten_pow h) a.fits_hao (fits_ten_pow h)

theorem denotes_toUnit (a : Amount) {u : Denomination} {k : ℕ} (hk : u.exponent.value + 8 = k)
    (h : k ≤ 22) : Denotes (a.toUnit u) (rounded (rounded a.hao / 10 ^ k)) := by
  have fits : Fits (rounded a.hao / 10 ^ k) :=
    fits_of_abs_le 63 (abs_div_ten_pow_le a.abs_rounded_hao_le k) (by omega)
  rw [toUnit_eq a hk h, Nat.cast_pow, Nat.cast_ofNat]
  exact denotes_ofRat false fits

end Amount

end Coinage
