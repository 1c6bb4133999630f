import Coinage.Proofs.FormatShape
import Coinage.Proofs.WholeHao

/-!
# Turned signs

Turning the sign of an operand turns the sign of a product or quotient, rounding included, and
that of the amount next to it unless an end of the range cuts one of the two off. So an amount and
its opposite are shown alike, and a number and its opposite are entered alike.

The one number whose sign cannot be seen on an integer is zero: nothing is shown without a sign,
and nothing times a number is nothing whatever the signs are.

Results.

* `ofRat_neg`, `Binary64.neg_mul`, `Binary64.neg_div`: rounding and arithmetic are odd.
* `toBits_neg`: a turned sign is one bit.
* `nearest_neg`: rounding to whole Hao is odd inside the range.
* `negation_commutes`: denominations, texts, entered numbers and multiples.
-/
namespace Coinage

namespace Binary64

open Magnitude

variable {x y : Binary64}

/-! ## Arithmetic -/

@[simp] theorem neg_nan : -nan = nan := rfl

@[simp] theorem neg_infinite (s : Bool) : -infinite s = infinite (!s) := rfl

theorem neg_ite (p : Prop) [Decidable p] (x y : Binary64) :
    -(if p then x else y) = if p then -x else -y :=
  apply_ite _ _ _ _

theorem neg_orInfinite (s : Bool) (m : Option Magnitude) : -orInfinite s m = orInfinite (!s) m := by
  cases m <;> rfl

@[simp] theorem value_neg (x : Binary64) : (-x).value = -x.value := by
  cases x with
  | nan => exact neg_zero.symm
  | infinite s => exact neg_zero.symm
  | finite s m => cases s <;> simp [neg_finite, value]

@[simp] theorem isFinite_neg (x : Binary64) : (-x).isFinite = x.isFinite := by
  cases x <;> rfl

theorem ofRat_neg (zeroSign : Bool) (q : ℚ) : ofRat (!zeroSign) (-q) = -ofRat zeroSign q := by
  have hs : (if -q = 0 then !zeroSign else decide (-q < 0)) =
      !(if q = 0 then zeroSign else decide (q < 0)) := by
    rcases lt_trichotomy q 0 with h | rfl | h
    · simp [h, h.ne, h.le]
    · simp
    · simp [h, h.ne', h.le]
  rw [ofRat, ofRat, neg_orInfinite, hs, Rat.neg_num, Int.natAbs_neg, Rat.neg_den]

theorem ofInt_neg {n : ℤ} (h : n ≠ 0) : ofInt (-n) = -ofInt n := by
  have hq : -(n : ℚ) ≠ 0 := by simpa using h
  rw [ofInt, ofInt, ← ofRat_neg, Int.cast_neg, ofRat_eq_ofRat hq]

theorem ofInt_zero : ofInt 0 = finite false .zero := by decide +kernel

theorem infinite_mul_infinite (s t : Bool) : infinite s * infinite t = infinite (s ^^ t) := rfl

theorem infinite_mul_finite (s t : Bool) (n : Magnitude) :
    infinite s * finite t n = if n.rank = 0 then nan else infinite (s ^^ t) := rfl

theorem finite_mul_infinite (s t : Bool) (m : Magnitude) :
    finite s m * infinite t = if m.rank = 0 then nan else infinite (s ^^ t) := rfl

theorem finite_mul_finite (s t : Bool) (m n : Magnitude) :
    finite s m * finite t n = ofRat (s ^^ t) ((finite s m).value * (finite t n).value) := by
  rfl

protected theorem mul_comm (x y : Binary64) : x * y = y * x := by
  cases x with
  | nan => cases y <;> rfl
  | infinite s =>
    cases y with
    | nan => rfl
    | infinite t => rw [infinite_mul_infinite, infinite_mul_infinite, Bool.xor_comm]
    | finite t n => rw [infinite_mul_finite, finite_mul_infinite, Bool.xor_comm]
  | finite s m =>
    cases y with
    | nan => rfl
    | infinite t => rw [infinite_mul_finite, finite_mul_infinite, Bool.xor_comm]
    | finite t n => rw [finite_mul_finite, finite_mul_finite, Bool.xor_comm, mul_comm]

protected theorem neg_mul (x y : Binary64) : -x * y = -(x * y) := by
  cases x with
  | nan => rfl
  | infinite s =>
    cases y with
    | nan => rfl
    | infinite t => simp [infinite_mul_infinite]
    | finite t n => simp [infinite_mul_finite, neg_ite]
  | finite s m =>
    cases y with
    | nan => rfl
    | infinite t => simp [neg_finite, finite_mul_infinite, neg_ite]
    | finite t n =>
      rw [neg_finite, finite_mul_finite, finite_mul_finite, Bool.not_xor, ← neg_finite, value_neg,
        neg_mul, ofRat_neg]

protected theorem mul_neg (x y : Binary64) : x * -y = -(x * y) := by
  rw [Binary64.mul_comm, Binary64.neg_mul, Binary64.mul_comm]

protected theorem neg_div (x y : Binary64) : -x / y = -(x / y) := by
  cases x with
  | nan => rfl
  | infinite s =>
    cases y with
    | nan => rfl
    | infinite t => rfl
    | finite t n => exact congrArg infinite (Bool.not_xor s t)
  | finite s m =>
    cases y with
    | nan => rfl
    | infinite t => exact congrArg (finite · .zero) (Bool.not_xor s t)
    | finite t n =>
      rw [neg_finite, finite_div_finite, finite_div_finite, Bool.not_xor, ← neg_finite, value_neg,
        neg_div, ofRat_neg]
      simp only [neg_ite, neg_nan, neg_infinite]

/-! ## Bits and texts -/

theorem two_pow_add_eq_xor {i r : ℕ} (h : r < 2 ^ i) : 2 ^ i + r = r ^^^ 2 ^ i := by
  have hd := Nat.xor_div_two_pow (a := r) (b := 2 ^ i) (n := i)
  have hm := Nat.xor_mod_two_pow (a := r) (b := 2 ^ i) (n := i)
  rw [Nat.div_eq_of_lt h, Nat.div_self (by positivity), Nat.zero_xor] at hd
  rw [Nat.mod_eq_of_lt h, Nat.mod_self, Nat.xor_zero] at hm
  rw [← Nat.div_add_mod (r ^^^ 2 ^ i) (2 ^ i), hd, hm, mul_one]

theorem ofNat_two_pow_add {r : ℕ} (h : r < 2 ^ 63) :
    UInt64.ofNat (2 ^ 63 + r) = UInt64.ofNat r ^^^ 0x8000000000000000 := by
  rw [two_pow_add_eq_xor h, UInt64.ofNat_xor]
  rfl

/-- Turning the sign is turning the leading bit. -/
theorem toBits_neg (h : x ≠ nan) : (-x).toBits = x.toBits ^^^ 0x8000000000000000 := by
  cases x with
  | nan => exact absurd rfl h
  | infinite s => cases s <;> decide
  | finite s m =>
    have hr := ofNat_two_pow_add (r := m.rank) (by have := m.rank_lt; omega)
    cases s with
    | false => exact hr
    | true =>
      show UInt64.ofNat m.rank = UInt64.ofNat (2 ^ 63 + m.rank) ^^^ 0x8000000000000000
      rw [hr, UInt64.xor_assoc, UInt64.xor_self, UInt64.xor_zero]

theorem HasSign.render_neg (h : HasSign false x) (layout : Magnitude → List Char) :
    render layout (-x) = "-" ++ render layout x := by
  rcases h with rfl | ⟨m, rfl⟩
  · rfl
  · show String.ofList (['-'] ++ layout m) = _
    rw [String.ofList_append]
    rfl

end Binary64

namespace Amount

open Binary64

variable {a b : Amount} {u : Denomination}

/-! ## Opposite amounts -/

theorem neg_eq_ok_iff : a.neg = .ok b ↔ b.hao = -a.hao := by
  rw [← ofHao?_eq_some_iff, neg, fitting]
  cases ofHao? (-a.hao) <;> simp

theorem exists_neg (h : a ≠ least) : ∃ b, a.neg = .ok b := by
  have hl : a.hao ≠ -2 ^ 63 := mt (hao_inj (b := least)).mp h
  have lo := a.lower
  have hi := a.upper
  exact ⟨⟨-a.hao, by omega, by omega⟩, neg_eq_ok_iff.mpr rfl⟩

theorem toUnit_neg (h : a.hao ≠ 0) (hb : b.hao = -a.hao) (u : Denomination) :
    b.toUnit u = -a.toUnit u := by
  rw [toUnit, toUnit, hb, ofInt_neg h, Binary64.neg_div]

theorem numeral_neg {x : Binary64} (h : HasSign false x) (u : Denomination) :
    numeral (-x) u = "-" ++ numeral x u := by
  have htext : (-x).text = "-" ++ x.text := h.render_neg _
  unfold numeral
  cases places? u with
  | none => exact htext
  | some places =>
    simp only [isFinite_neg]
    by_cases hf : x.isFinite = true
    · rw [if_pos hf, if_pos hf, fixed, h.render_neg, String.append_assoc]
    · rw [if_neg hf, if_neg hf, htext]

theorem format_neg (h : 0 < a.hao) (hb : b.hao = -a.hao) (u : Denomination) :
    b.format u = "-" ++ a.format u := by
  have sign := toUnit_hasSign h.ne' u
  rw [decide_eq_false h.le.not_gt] at sign
  rw [format, format, toUnit_neg h.ne' hb, numeral_neg sign]
  simp only [String.append_assoc]

/-! ## Rounding to whole Hao -/

/-- Neither end of the range of amounts. -/
def IsInside (a : Amount) : Prop := a ≠ least ∧ a ≠ greatest

instance : DecidablePred IsInside := fun a => inferInstanceAs (Decidable (a ≠ least ∧ a ≠ greatest))

theorem IsInside.hao_ne (h : IsInside a) : a.hao ≠ -2 ^ 63 ∧ a.hao ≠ 2 ^ 63 - 1 :=
  ⟨mt (hao_inj (b := least)).mp h.1, mt (hao_inj (b := greatest)).mp h.2⟩

theorem nearest_nan : nearest nan = zero := by decide +kernel

theorem not_isInside_nearest_infinite (s : Bool) : ¬IsInside (nearest (infinite s)) := by
  cases s <;> simp [IsInside] <;> decide +kernel

/-- Rounding to whole Hao is odd where no end of the range is reached. -/
theorem nearest_neg {x : Binary64} (h : IsInside (nearest x)) (h' : IsInside (nearest (-x))) :
    (nearest x).neg = .ok (nearest (-x)) := by
  rw [neg_eq_ok_iff]
  cases x with
  | nan => simp [nearest_nan, zero]
  | infinite s => exact absurd h (not_isInside_nearest_infinite s)
  | finite s m =>
    have hx := denotes_value (x := finite s m) rfl
    have e := hao_nearest hx
    have e' := hao_nearest hx.neg
    have i := h.hao_ne
    have i' := h'.hao_ne
    rw [wholeHao_neg] at e'
    omega

/-! ## Multiples -/

theorem scale_neg_right {x : Binary64} (h : IsInside (a.scale x)) (h' : IsInside (a.scale (-x))) :
    (a.scale x).neg = .ok (a.scale (-x)) := by
  unfold scale at h h' ⊢
  rw [Binary64.mul_neg] at h' ⊢
  exact nearest_neg h h'

/-- Nothing times a number is nothing, also where the product is no number. -/
theorem hao_scale_of_hao_eq_zero (h : a.hao = 0) (x : Binary64) : (a.scale x).hao = 0 := by
  rw [scale, h, ofInt_zero]
  cases x with
  | nan => exact congrArg hao nearest_nan
  | infinite s =>
    -- zero times an infinity is no number
    exact congrArg hao nearest_nan
  | finite s m =>
    have product : Denotes (finite false .zero * finite s m) (rounded 0) := by
      have hf := fits_zero
      have hz := denotes_ofInt_of_abs_le (n := 0) (by decide)
      rw [ofInt_zero, Int.cast_zero] at hz
      rw [← zero_mul (finite s m).value] at hf ⊢
      exact hz.mul (denotes_value rfl) hf
    rw [hao_nearest product, rounded_zero, wholeHao_zero]
    decide

theorem scale_neg_left {x : Binary64} (hb : b.hao = -a.hao) (h : IsInside (a.scale x))
    (h' : IsInside (b.scale x)) : (a.scale x).neg = .ok (b.scale x) := by
  by_cases h0 : a.hao = 0
  · rw [neg_eq_ok_iff, hao_scale_of_hao_eq_zero h0, hao_scale_of_hao_eq_zero (by omega), neg_zero]
  · unfold scale at h h' ⊢
    rw [hb, ofInt_neg h0, Binary64.neg_mul] at h' ⊢
    exact nearest_neg h h'

/-! ## Entered numbers -/

theorem ofNumber_neg (basis : Basis) {x : Binary64} (hx : x.isFinite = true) :
    ∃ r s, ofNumber basis x = .silent (.ok r) ∧ ofNumber basis (-x) = .silent (.ok s) ∧
      (IsInside r → IsInside s → r.neg = .ok s) := by
  have hx' : (-x).isFinite = true := by rwa [isFinite_neg]
  cases basis with
  | hao => exact ⟨nearest x, nearest (-x), if_pos hx, if_pos hx', nearest_neg⟩
  | coin =>
    have e : ofNumber .coin x = .silent (.ok (nearest (x * .ofInt oneCoin.hao))) := if_pos hx
    have e' : ofNumber .coin (-x) = .silent (.ok (nearest (-x * .ofInt oneCoin.hao))) := if_pos hx'
    rw [Binary64.neg_mul] at e'
    exact ⟨_, _, e, e', nearest_neg⟩

/-- Opposite amounts have numbers that differ in the sign bit and texts that differ in the sign;
opposite numbers give opposite amounts, entered and multiplied, inside the range. -/
theorem negation_commutes :
    (∀ a : Amount, a.hao ≠ 0 → a ≠ least → ∃ b, a.neg = .ok b ∧ ∀ u,
      (b.toUnit u).toBits = (a.toUnit u).toBits ^^^ 0x8000000000000000 ∧
      (0 < a.hao → b.format u = "-" ++ a.format u)) ∧
    (∀ basis x, x.isFinite = true → ∃ r s, ofNumber basis x = .silent (.ok r) ∧
      ofNumber basis (-x) = .silent (.ok s) ∧ (IsInside r → IsInside s → r.neg = .ok s)) ∧
    (∀ (a : Amount) x, IsInside (a.scale x) → IsInside (a.scale (-x)) →
      (a.scale x).neg = .ok (a.scale (-x))) ∧
    (∀ (a : Amount) x, a ≠ least → ∃ b, a.neg = .ok b ∧
      (IsInside (a.scale x) → IsInside (b.scale x) → (a.scale x).neg = .ok (b.scale x))) := by
  refine ⟨?_, fun basis x => ofNumber_neg basis, fun a x => scale_neg_right, ?_⟩
  · intro a h0 hl
    obtain ⟨b, hb⟩ := exists_neg hl
    refine ⟨b, hb, fun u => ⟨?_, fun h => format_neg h (neg_eq_ok_iff.mp hb) u⟩⟩
    rw [toUnit_neg h0 (neg_eq_ok_iff.mp hb), toBits_neg (toUnit_hasSign h0 u).ne_nan]
  · intro a x hl
    obtain ⟨b, hb⟩ := exists_neg hl
    exact ⟨b, hb, scale_neg_left (neg_eq_ok_iff.mp hb)⟩

/-- A coin and its opposite, shown in kilocoins; a half and its opposite, entered as coins and as
factors of a coin; a half as the factor of a coin and of its opposite. -/
theorem negation_commutes_half :
    (∃ b, oneCoin.neg = .ok b ∧
      (b.toUnit .kilo).toBits = (oneCoin.toUnit .kilo).toBits ^^^ 0x8000000000000000 ∧
      b.format .kilo = "-" ++ oneCoin.format .kilo) ∧
    (∃ r s, ofNumber .coin .half = .silent (.ok r) ∧ ofNumber .coin (-.half) = .silent (.ok s) ∧
      r.hao = 50000000 ∧ s.hao = -50000000 ∧ r.neg = .ok s) ∧
    (oneCoin.scale .half).neg = .ok (oneCoin.scale (-.half)) ∧
    ∃ b, oneCoin.neg = .ok b ∧ (oneCoin.scale .half).neg = .ok (b.scale .half) := by
  obtain ⟨shown, entered, multiplied, opposite⟩ := negation_commutes
  have forward : (ofNumber .coin .half).result = .ok ⟨50000000, by decide, by decide⟩ := by
    decide +kernel
  have backward : (ofNumber .coin (-.half)).result = .ok ⟨-50000000, by decide, by decide⟩ := by
    decide +kernel
  have negated : oneCoin.neg = .ok ⟨-100000000, by decide, by decide⟩ := by decide
  refine ⟨?_, ?_, multiplied oneCoin .half (by decide +kernel) (by decide +kernel), ?_⟩
  · obtain ⟨b, hb, h⟩ := shown oneCoin (by decide) (by decide)
    exact ⟨b, hb, (h .kilo).1, (h .kilo).2 (by decide)⟩
  · obtain ⟨r, s, hr, hs, h⟩ := entered .coin .half (by decide +kernel)
    rw [hr] at forward
    rw [hs] at backward
    cases forward
    cases backward
    exact ⟨_, _, hr, hs, rfl, rfl, h (by decide) (by decide)⟩
  · obtain ⟨b, hb, h⟩ := opposite oneCoin .half (by decide)
    refine ⟨b, hb, h (by decide +kernel) ?_⟩
    obtain rfl : b = ⟨-100000000, by decide, by decide⟩ := by
      rw [negated] at hb
      cases hb
      rfl
    decide +kernel

end Amount

end Coinage
