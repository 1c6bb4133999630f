import Coinage.Proofs.Signs

/-!
# Relative errors along a computation

Every rounding in the normal range keeps a number within a factor of `1 - 2^-53`, from above as
from below. `Within m x y` counts such factors between two positive numbers. The counts add up along
products and quotients, and a rounding adds one, so the error of a chain of operations is known once
its roundings are counted.

Repeated squaring does not round up to `10^22`. Above, the power `10^(16·2^i)` costs `2^i - 1`
roundings and its product one more, which makes `n / 16` roundings for `10^n`.

Results.

* `Within.trans`, `Within.mul`, `Within.div`, `Within.rounded`: the counts of a computation.
* `Within.abs_sub_le`: thirty-one roundings stay within one part in `2^48`.
* `approximates_pow_ten`, `approximates_powerOfTen`: the powers of ten of binary64 arithmetic.
-/
namespace Coinage.Binary64

open Magnitude

/-! ## Counting roundings -/

/-- What a rounding at most takes away, as a factor. -/
def shrink : ℚ := 1 - 1 / 2 ^ 53

theorem shrink_pos : 0 < shrink := by norm_num [shrink]

theorem shrink_pow_pos (m : ℕ) : 0 < shrink ^ m := pow_pos shrink_pos m

theorem shrink_pow_le_shrink_pow {m n : ℕ} (h : m ≤ n) : shrink ^ n ≤ shrink ^ m :=
  pow_le_pow_of_le_one shrink_pos.le (by norm_num [shrink]) h

/-- Lower bounds of two factors count their roundings together. -/
theorem shrink_pow_mul_le {m n : ℕ} {x y x' y' : ℚ} (h : shrink ^ m * y ≤ x)
    (h' : shrink ^ n * y' ≤ x') (hy : 0 ≤ y') (hx : 0 ≤ x) :
    shrink ^ (m + n) * (y * y') ≤ x * x' :=
  calc shrink ^ (m + n) * (y * y') = (shrink ^ m * y) * (shrink ^ n * y') := by
        rw [pow_add, mul_mul_mul_comm]
    _ ≤ x * x' := mul_le_mul h h' (mul_nonneg (shrink_pow_pos n).le hy) hx

theorem half_le_shrink_pow {m : ℕ} (h : m ≤ 309) : 1 / 2 ≤ shrink ^ m := by
  have bernoulli : 1 + ((309 : ℕ) : ℚ) * (shrink - 1) ≤ (1 + (shrink - 1)) ^ 309 :=
    one_add_mul_le_pow (by norm_num [shrink]) 309
  rw [add_sub_cancel] at bernoulli
  calc (1 : ℚ) / 2 ≤ 1 + ((309 : ℕ) : ℚ) * (shrink - 1) := by norm_num [shrink]
    _ ≤ shrink ^ 309 := bernoulli
    _ ≤ shrink ^ m := shrink_pow_le_shrink_pow h

/-- Two positive numbers that are at most `m` roundings apart. -/
structure Within (m : ℕ) (x y : ℚ) : Prop where
  left_pos : 0 < x
  right_pos : 0 < y
  le_left : shrink ^ m * y ≤ x
  le_right : shrink ^ m * x ≤ y

namespace Within

variable {m n : ℕ} {x y z x' y' : ℚ}

theorem refl (h : 0 < x) : Within 0 x x := ⟨h, h, by simp, by simp⟩

theorem symm (h : Within m x y) : Within m y x := ⟨h.right_pos, h.left_pos, h.le_right, h.le_left⟩

theorem le_mono_left (h : Within m x y) (hmn : m ≤ n) : shrink ^ n * y ≤ x :=
  calc shrink ^ n * y ≤ shrink ^ m * y :=
        mul_le_mul_of_nonneg_right (shrink_pow_le_shrink_pow hmn) h.right_pos.le
    _ ≤ x := h.le_left

theorem mono (h : Within m x y) (hmn : m ≤ n) : Within n x y where
  left_pos := h.left_pos
  right_pos := h.right_pos
  le_left := h.le_mono_left hmn
  le_right := h.symm.le_mono_left hmn

theorem le_trans_left (h : Within m x y) (h' : Within n y z) : shrink ^ (m + n) * z ≤ x :=
  calc shrink ^ (m + n) * z = shrink ^ m * (shrink ^ n * z) := by rw [pow_add, mul_assoc]
    _ ≤ shrink ^ m * y := mul_le_mul_of_nonneg_left h'.le_left (shrink_pow_pos m).le
    _ ≤ x := h.le_left

theorem trans (h : Within m x y) (h' : Within n y z) : Within (m + n) x z where
  left_pos := h.left_pos
  right_pos := h'.right_pos
  le_left := h.le_trans_left h'
  le_right := by
    rw [add_comm]
    exact h'.symm.le_trans_left h.symm

theorem mul (h : Within m x y) (h' : Within n x' y') : Within (m + n) (x * x') (y * y') where
  left_pos := mul_pos h.left_pos h'.left_pos
  right_pos := mul_pos h.right_pos h'.right_pos
  le_left := shrink_pow_mul_le h.le_left h'.le_left h'.right_pos.le h.left_pos.le
  le_right := shrink_pow_mul_le h.le_right h'.le_right h'.left_pos.le h.right_pos.le

theorem le_inv_left (h : Within m x y) : shrink ^ m * y⁻¹ ≤ x⁻¹ := by
  rw [← div_eq_mul_inv, ← one_div, div_le_div_iff₀ h.right_pos h.left_pos, one_mul]
  exact h.le_right

theorem inv (h : Within m x y) : Within m x⁻¹ y⁻¹ where
  left_pos := inv_pos.mpr h.left_pos
  right_pos := inv_pos.mpr h.right_pos
  le_left := h.le_inv_left
  le_right := h.symm.le_inv_left

theorem div (h : Within m x y) (h' : Within n x' y') : Within (m + n) (x / x') (y / y') := by
  rw [div_eq_mul_inv, div_eq_mul_inv]
  exact h.mul h'.inv

/-- A rounding from the least normal number on. -/
theorem of_rounded (h : 2 ^ (-1022 : ℤ) ≤ x) : Within 1 (rounded x) x := by
  have h0 : 0 < x := lt_of_lt_of_le (by positivity) h
  have he := abs_rounded_sub_le_div (q := x) (by rwa [abs_of_pos h0])
  rw [abs_of_pos h0] at he
  obtain ⟨lo, hi⟩ := abs_le.mp he
  norm_num at lo hi
  refine ⟨by linarith, h0, ?_, ?_⟩
  · norm_num [shrink]
    linarith
  · norm_num [shrink]
    linarith

/-! ## Few roundings -/

theorem half_le (h : Within m x y) (hm : m ≤ 32) : y / 2 ≤ x :=
  calc y / 2 = 1 / 2 * y := by ring
    _ ≤ shrink ^ m * y :=
        mul_le_mul_of_nonneg_right (half_le_shrink_pow (by omega)) h.right_pos.le
    _ ≤ x := h.le_left

theorem le_two_mul (h : Within m x y) (hm : m ≤ 32) : x ≤ 2 * y := by
  have := h.symm.half_le hm
  linarith

/-- A number a few roundings away from one well inside the normal range does not overflow. -/
theorem fits (h : Within m x y) (hm : m ≤ 32) (hy : y ≤ 2 ^ 1020) : Fits x := by
  refine fits_of_abs_le 1023 ?_ le_rfl
  rw [abs_of_pos h.left_pos]
  calc x ≤ 2 * y := h.le_two_mul hm
    _ ≤ 2 * 2 ^ 1020 := mul_le_mul_of_nonneg_left hy (by norm_num)
    _ = 2 ^ 1021 := (pow_succ' 2 1020).symm
    _ ≤ 2 ^ 1023 := pow_le_pow_right₀ one_le_two (by omega)

theorem rounded (h : Within m x y) (hm : m ≤ 32) (hy : 2 ^ (-1021 : ℤ) ≤ y) :
    Within (m + 1) (rounded x) y := by
  have hx : 2 ^ (-1022 : ℤ) ≤ x := by
    have e : (2 : ℚ) ^ (-1021 - 1 : ℤ) = 2 ^ (-1021 : ℤ) / 2 := by
      rw [zpow_sub_one₀ two_ne_zero, div_eq_mul_inv]
    rw [show (-1022 : ℤ) = -1021 - 1 from rfl, e]
    exact (div_le_div_of_nonneg_right hy (by norm_num)).trans (h.half_le hm)
  rw [add_comm]
  exact (of_rounded hx).trans h

/-- Thirty-one roundings stay within one part in `2^48`. -/
theorem abs_sub_le (h : Within m x y) (hm : m ≤ 31) : |x - y| ≤ y / 2 ^ 48 := by
  have hs := shrink_pow_le_shrink_pow hm
  have e : 1 ≤ shrink ^ 31 * (1 + 1 / 2 ^ 48) := by norm_num [shrink]
  have e' : 1 - 1 / 2 ^ 48 ≤ shrink ^ 31 := by norm_num [shrink]
  have hlo : (1 - 1 / 2 ^ 48) * y ≤ x :=
    (mul_le_mul_of_nonneg_right (e'.trans hs) h.right_pos.le).trans h.le_left
  have hhi : x ≤ (1 + 1 / 2 ^ 48) * y :=
    calc x = 1 * x := (one_mul x).symm
      _ ≤ shrink ^ 31 * (1 + 1 / 2 ^ 48) * x := mul_le_mul_of_nonneg_right e h.left_pos.le
      _ = (1 + 1 / 2 ^ 48) * (shrink ^ 31 * x) := by ring
      _ ≤ (1 + 1 / 2 ^ 48) * y := mul_le_mul_of_nonneg_left
          ((mul_le_mul_of_nonneg_right hs h.left_pos.le).trans h.le_right) (by norm_num)
  rw [abs_le]
  constructor <;> linarith

end Within

/-! ## Operations -/

/-- A finite number that is at most `m` roundings away from `q`. -/
def Approximates (m : ℕ) (x : Binary64) (q : ℚ) : Prop := x.isFinite = true ∧ Within m x.value q

namespace Approximates

variable {m n : ℕ} {x y : Binary64} {p q : ℚ}

theorem of_denotes (h : Denotes x q) (hq : 0 < q) : Approximates 0 x q :=
  ⟨h.1, by rw [h.2]; exact .refl hq⟩

theorem mono (h : Approximates m x q) (hmn : m ≤ n) : Approximates n x q := ⟨h.1, h.2.mono hmn⟩

variable (hx : Approximates m x p) (hy : Approximates n y q) (hmn : m + n ≤ 32)
include hx hy hmn

theorem mul (hlo : 2 ^ (-1021 : ℤ) ≤ p * q) (hhi : p * q ≤ 2 ^ 1020) :
    Approximates (m + n + 1) (x * y) (p * q) := by
  have hw := hx.2.mul hy.2
  have product := (denotes_value hx.1).mul (denotes_value hy.1) (hw.fits hmn hhi)
  refine ⟨product.1, ?_⟩
  rw [product.2]
  exact hw.rounded hmn hlo

theorem div (hlo : 2 ^ (-1021 : ℤ) ≤ p / q) (hhi : p / q ≤ 2 ^ 1020) :
    Approximates (m + n + 1) (x / y) (p / q) := by
  have hw := hx.2.div hy.2
  have quotient := (denotes_value hx.1).div (denotes_value hy.1) hy.2.left_pos.ne' (hw.fits hmn hhi)
  refine ⟨quotient.1, ?_⟩
  rw [quotient.2]
  exact hw.rounded hmn hlo

end Approximates

/-! ## Powers of ten -/

theorem ten_pow_le {n : ℕ} (h : n ≤ 307) : (10 : ℚ) ^ n ≤ 2 ^ 1020 :=
  calc (10 : ℚ) ^ n ≤ 10 ^ (59 * 5 + 12) := pow_le_pow_right₀ (by norm_num) h
    _ = (10 ^ 59) ^ 5 * 10 ^ 12 := by rw [pow_add, pow_mul]
    _ ≤ (2 ^ 196) ^ 5 * 2 ^ 40 := mul_le_mul (pow_le_pow_left₀ (by norm_num) (by norm_num) 5)
        (by norm_num) (by norm_num) (by positivity)
    _ = 2 ^ 1020 := by rw [← pow_mul, ← pow_add]

theorem least_le_ten_pow (n : ℕ) : (2 : ℚ) ^ (-1021 : ℤ) ≤ 10 ^ n :=
  (zpow_le_one_of_nonpos₀ one_le_two (by omega)).trans (one_le_pow₀ (by norm_num))

theorem approximates_ten_pow {n : ℕ} (h : n ≤ 22) :
    Approximates 0 (ofInt (10 ^ n : ℕ)) (10 ^ n) := by
  refine .of_denotes ?_ (by positivity)
  have hd := denotes_ofInt (n := (10 ^ n : ℕ)) (by exact_mod_cast fits_ten_pow h)
  rw [Int.cast_natCast, rounded_ten_pow h] at hd
  exact_mod_cast hd

theorem powFrom_zero (acc base : Binary64) : powFrom acc base 0 = acc := by
  rw [powFrom, if_pos rfl]

/-- The first squares are exact, and so is what they have been multiplied to. -/
theorem powFrom_ten_eq (s n i j : ℕ) (hi : i + j * 2 ^ s ≤ 22 + j) (hj : j * 2 ^ s ≤ 22) :
    powFrom (ofInt (10 ^ i : ℕ)) (ofInt (10 ^ j : ℕ)) n =
      powFrom (ofInt (10 ^ (i + j * (n % 2 ^ s)) : ℕ)) (ofInt (10 ^ (j * 2 ^ s) : ℕ))
        (n / 2 ^ s) := by
  induction s generalizing n i j with
  | zero => simp [Nat.mod_one]
  | succ s ih =>
    by_cases h0 : n = 0
    · subst h0
      rw [Nat.zero_div, Nat.zero_mod, mul_zero, add_zero, powFrom_zero, powFrom_zero]
    have hle : j ≤ j * 2 ^ s := Nat.le_mul_of_pos_right j (by positivity)
    have e : j * 2 ^ (s + 1) = j * 2 ^ s + j * 2 ^ s := by ring
    have hacc : (if n % 2 = 1 then ofInt (10 ^ i : ℕ) * ofInt (10 ^ j : ℕ)
        else ofInt (10 ^ i : ℕ)) = ofInt (10 ^ (i + j * (n % 2)) : ℕ) := by
      rcases Nat.mod_two_eq_zero_or_one n with h | h
      · simp [h]
      · rw [if_pos h, h, mul_one, ofInt_ten_pow_mul (by omega) (by omega)]
    have hbit : j * (n % 2) ≤ j * 1 := Nat.mul_le_mul_left j (by omega)
    rw [powFrom, if_neg h0, hacc, ofInt_ten_pow_mul (by omega) (by omega),
      ih (n / 2) (i + j * (n % 2)) (j + j) (by rw [add_mul]; omega) (by rw [add_mul]; omega)]
    have hexp : i + j * (n % 2) + (j + j) * (n / 2 % 2 ^ s) = i + j * (n % 2 ^ (s + 1)) := by
      rw [pow_succ', Nat.mod_mul]
      ring
    have hbase : (j + j) * 2 ^ s = j * 2 ^ (s + 1) := by ring
    rw [hexp, hbase, Nat.div_div_eq_div_mul, ← pow_succ']

theorem Approximates.mul_ten_pow {x y : Binary64} {m n i j : ℕ} (hx : Approximates m x (10 ^ i))
    (hy : Approximates n y (10 ^ j)) (hmn : m + n ≤ 32) (hij : i + j ≤ 307) :
    Approximates (m + n + 1) (x * y) (10 ^ (i + j)) := by
  rw [pow_add]
  refine hx.mul hy hmn ?_ ?_
  · rw [← pow_add]
    exact least_le_ten_pow _
  · rw [← pow_add]
    exact ten_pow_le hij

theorem Approximates.powFrom {acc base : Binary64} {c b i j : ℕ} (n : ℕ)
    (ha : Approximates c acc (10 ^ i)) (hb : Approximates b base (10 ^ j))
    (hcount : c + (b + 1) * n ≤ 32) (hexp : i + j * n ≤ 307) :
    Approximates (c + (b + 1) * n) (powFrom acc base n) (10 ^ (i + j * n)) := by
  refine powFrom_induction (P := fun c i x => c ≤ 32 → i ≤ 307 → Approximates c x (10 ^ i))
    ?_ n (fun _ _ => ha) (fun _ _ => hb) hcount hexp
  intro c b i j x y hx hy hcount hexp
  exact (hx (by omega) (by omega)).mul_ten_pow (hy (by omega) (by omega)) (by omega) hexp

/-- A power of ten costs one rounding for every sixteen of its exponent. -/
theorem approximates_pow_ten {n : ℕ} (h : n ≤ 307) :
    Approximates (n / 16) (pow (ofInt 10) n) (10 ^ n) := by
  have e : pow (ofInt 10) n =
      powFrom (ofInt (10 ^ (n % 16) : ℕ)) (ofInt (10 ^ 16 : ℕ)) (n / 16) := by
    have := powFrom_ten_eq 4 n 0 1 (by omega) (by omega)
    rwa [pow_zero, pow_one, zero_add, one_mul, one_mul] at this
  have hexp : n % 16 + 16 * (n / 16) = n := Nat.mod_add_div n 16
  have run := (approximates_ten_pow (n := n % 16) (by omega)).powFrom (n / 16)
    (approximates_ten_pow (n := 16) (by omega)) (by omega) (by omega)
  rwa [zero_add, zero_add, one_mul, hexp, ← e] at run

theorem approximates_powerOfTen {e : ℤ} (hlo : -307 ≤ e) (hhi : e ≤ 307) :
    Approximates 20 (powerOfTen e) (10 ^ e) := by
  cases e with
  | ofNat n =>
    rw [Int.ofNat_eq_natCast] at hhi ⊢
    rw [zpow_natCast]
    exact (approximates_pow_ten (by omega)).mono (by omega)
  | negSucc n =>
    have hn : n + 1 ≤ 307 := by omega
    have one : Approximates 0 (ofInt 1) 1 := .of_denotes denotes_one one_pos
    have h := one.div (approximates_pow_ten hn) (by omega) ?_ ?_
    · rw [zpow_negSucc, ← one_div]
      exact h.mono (by omega)
    · rw [zpow_neg, zpow_ofNat, ← one_div]
      exact one_div_le_one_div_of_le (by positivity)
        ((ten_pow_le hn).trans (pow_le_pow_right₀ one_le_two (by omega)))
    · refine (div_le_one_of_le₀ (one_le_pow₀ (by norm_num)) (by positivity)).trans ?_
      exact one_le_pow₀ one_le_two

end Coinage.Binary64
