/-!
# Rounding a quotient of naturals

`halfEven n d` is the whole number nearest to `n / d`; a quotient that lies halfway between two
whole numbers goes to the even one. Every rounding of this library, to a binary64 number or to a
fixed count of decimal places, is an instance of it.

Results.

* `halfEven_mul`: a whole quotient is kept.
* `halfEven_le`, `le_halfEven`: the result is within half of the quotient, both stated without
  division.
* `even_halfEven`: a tie goes to the even neighbour.
-/
namespace Coinage

/-- The whole number nearest to `n / d`, the even one of two that are equally near. -/
def halfEven (n d : Nat) : Nat :=
  if 2 * (n % d) < d ∨ 2 * (n % d) = d ∧ n / d % 2 = 0 then n / d else n / d + 1

theorem halfEven_mul (q : Nat) {d : Nat} (h : 0 < d) : halfEven (q * d) d = q := by
  simp [halfEven, Nat.mul_div_cancel q h, h]

/-- At most half a unit above the quotient. -/
theorem halfEven_le (n : Nat) {d : Nat} (h : 0 < d) : 2 * (halfEven n d * d) ≤ 2 * n + d := by
  have hq := Nat.div_add_mod n d
  have hr := Nat.mod_lt n h
  rw [Nat.mul_comm] at hq
  unfold halfEven
  split
  · omega
  · rw [Nat.add_mul]; omega

/-- At most half a unit below the quotient. -/
theorem le_halfEven (n : Nat) {d : Nat} (h : 0 < d) : 2 * n ≤ 2 * (halfEven n d * d) + d := by
  have hq := Nat.div_add_mod n d
  have hr := Nat.mod_lt n h
  rw [Nat.mul_comm] at hq
  unfold halfEven
  split
  · omega
  · rw [Nat.add_mul]; omega

theorem even_halfEven {n d : Nat} (h : 2 * (n % d) = d) : halfEven n d % 2 = 0 := by
  unfold halfEven
  split <;> omega

end Coinage
