import Coinage.Proofs.ShortestDecimal
import Mathlib.Data.List.TakeWhile
import Mathlib.Data.Nat.Digits.Lemmas

/-!
# Significant digits

The significant digits of a decimal are those from the first to the last that is not zero. Their
count is a property of the number alone, not of the power of ten it is written with: there are at
most `n` of them exactly if the number is some `c · 10^e` with `c` below `10^n`. So the shortest
decimal of a magnitude has the fewest that a decimal which rounds to it can have.

Results.

* `significantDigits_le_iff`: the count in terms of the value.
* `significantDigits_le_of_hit`: what is written for a magnitude has the fewest.
-/
namespace Coinage

namespace Decimal

/-- The count of digits without the zeros at the end. -/
def significantDigits (x : Decimal) : ℕ := ((Nat.digits 10 x.digits).dropWhile (· = 0)).length

variable {x : Decimal} {n : ℕ}

/-- The zeros at the end are a power of ten. -/
theorem exists_digits_eq (x : Decimal) :
    ∃ c k, x.digits = c * 10 ^ k ∧ c < 10 ^ x.significantDigits := by
  obtain ⟨zeros, hzeros⟩ : ∃ zeros, zeros = (Nat.digits 10 x.digits).takeWhile (· = 0) := ⟨_, rfl⟩
  obtain ⟨rest, hrest⟩ : ∃ rest, rest = (Nat.digits 10 x.digits).dropWhile (· = 0) := ⟨_, rfl⟩
  have hd : Nat.digits 10 x.digits = zeros ++ rest := by
    rw [hzeros, hrest, List.takeWhile_append_dropWhile]
  have hz : zeros = List.replicate zeros.length 0 := by
    refine List.eq_replicate_of_mem fun d hd => ?_
    rw [hzeros] at hd
    simpa using List.mem_takeWhile_imp hd
  refine ⟨Nat.ofDigits 10 rest, zeros.length, ?_, ?_⟩
  · have hv := Nat.ofDigits_digits 10 x.digits
    rw [hd, Nat.ofDigits_append, hz, Nat.ofDigits_replicate_zero, List.length_replicate,
      Nat.zero_add] at hv
    rw [← hv, Nat.mul_comm]
  · rw [significantDigits, ← hrest]
    refine Nat.ofDigits_lt_base_pow_length (by omega) fun d hr => ?_
    exact Nat.digits_lt_base (by omega) (hd ▸ List.mem_append_right zeros hr)

theorem significantDigits_le {c k : ℕ} (h : x.digits = c * 10 ^ k) (hc : c < 10 ^ n) :
    x.significantDigits ≤ n := by
  rcases Nat.eq_zero_or_pos c with rfl | h0
  · rw [significantDigits, h, Nat.zero_mul, Nat.digits_zero]
    exact Nat.zero_le n
  · have hd : Nat.digits 10 x.digits = List.replicate k 0 ++ Nat.digits 10 c := by
      rw [h, Nat.mul_comm, Nat.digits_base_pow_mul (by omega) h0]
    rw [significantDigits, hd, List.dropWhile_append_of_pos (by simp)]
    have hl : (Nat.digits 10 c).length ≤ n := (Nat.digits_length_le_iff (by omega) c).mpr hc
    exact (List.dropWhile_sublist _).length_le.trans hl

/-- The count of significant digits in terms of the value. -/
theorem significantDigits_le_iff :
    x.significantDigits ≤ n ↔ ∃ (c : ℕ) (e : ℤ), x.value = c * 10 ^ e ∧ c < 10 ^ n := by
  constructor
  · intro h
    obtain ⟨c, k, hx, hc⟩ := x.exists_digits_eq
    refine ⟨c, k + x.exponent, ?_, hc.trans_le (Nat.pow_le_pow_right (by omega) h)⟩
    rw [value_eq, hx, zpow_add₀ (by norm_num), zpow_natCast]
    push_cast
    ring
  · rintro ⟨c, e, hv, hc⟩
    rw [value_eq] at hv
    have h10 : (10 : ℚ) ≠ 0 := by norm_num
    rcases le_total x.exponent e with h | h
    · obtain ⟨k, hk⟩ := Int.le.dest h
      refine significantDigits_le (c := c) (k := k) ?_ hc
      rw [← hk, zpow_add₀ h10, zpow_natCast, ← mul_assoc, mul_right_comm] at hv
      exact_mod_cast mul_right_cancel₀ (zpow_ne_zero _ h10) hv
    · obtain ⟨k, hk⟩ := Int.le.dest h
      refine significantDigits_le (c := x.digits) (k := 0) (by omega) (lt_of_le_of_lt ?_ hc)
      rw [← hk, zpow_add₀ h10, zpow_natCast, ← mul_assoc, mul_right_comm] at hv
      have hcx : x.digits * 10 ^ k = c := by
        exact_mod_cast mul_right_cancel₀ (zpow_ne_zero _ h10) hv
      exact hcx ▸ Nat.le_mul_of_pos_right _ (by positivity)

end Decimal

namespace Magnitude

variable {m : Magnitude} {x y : Decimal}

/-- What has the value of the shortest decimal has no more significant digits than any decimal that
rounds to the magnitude. -/
theorem significantDigits_le_of_hit (hy : y.value = m.shortest.value)
    (hx : ofDecimal? x = some m) : y.significantDigits ≤ x.significantDigits := by
  rw [Decimal.significantDigits_le_iff, hy]
  refine ⟨m.shortest.digits, m.shortest.exponent, m.shortest.value_eq, ?_⟩
  obtain ⟨c, e, hv, hc⟩ := Decimal.significantDigits_le_iff.mp (le_refl x.significantDigits)
  by_cases h0 : m.rank = 0
  · rw [shortest, if_pos h0]
    positivity
  · refine shortest_digits_lt (x := ⟨c, e⟩) h0 ?_ hc
    rw [ofDecimal?_eq_some_iff] at hx ⊢
    rw [← hx, hv, Decimal.value_eq]

end Magnitude

end Coinage
