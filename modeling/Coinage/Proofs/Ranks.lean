import Coinage.Binary64.Magnitude
import Coinage.Proofs.Rounding
import Mathlib.Order.Monotone.Basic

/-!
# Ranks and the naturals they count

`unitsAt r` is the count of units of the magnitude of rank `r`, continued beyond the greatest
magnitude. A rank is `s · 2^52 + k`, with `k` the significand and `2^s` the spacing; the carry to
`k = 2^53` denotes the first rank of the next binade, so both readings of it agree.

Results.

* `unitsAt_strictMono`: ranks are in ascending order of their units.
* `nearestRank_eq`: a quotient inside a binade, both ends included, is rounded on the spacing of
  that binade.
* `nearestRank_unitsAt`: a magnitude is its own rounding.
* `nearestRank_mono`: the larger quotient has the larger rank.
-/
namespace Coinage.Magnitude

/-- The count of units at a rank, the binades going on without end. -/
def unitsAt (r : ℕ) : ℕ := (r - (r / 2 ^ 52 - 1) * 2 ^ 52) * 2 ^ (r / 2 ^ 52 - 1)

/-- A significand has its full width, except where the spacing is least. -/
theorem unitsAt_add {s k : ℕ} (hs : s = 0 ∨ 2 ^ 52 ≤ k) (hk : k ≤ 2 ^ 53) :
    unitsAt (s * 2 ^ 52 + k) = k * 2 ^ s := by
  unfold unitsAt
  rcases Nat.lt_or_eq_of_le hk with hlt | rfl
  · have hq : (s * 2 ^ 52 + k) / 2 ^ 52 - 1 = s := by omega
    rw [hq, Nat.add_sub_cancel_left]
  · have hq : (s * 2 ^ 52 + 2 ^ 53) / 2 ^ 52 - 1 = s + 1 := by omega
    have hr : s * 2 ^ 52 + 2 ^ 53 - (s + 1) * 2 ^ 52 = 2 ^ 52 := by omega
    rw [hq, hr, Nat.pow_succ 2 s]; ring

theorem exists_shift (r : ℕ) :
    ∃ s k, r = s * 2 ^ 52 + k ∧ k < 2 ^ 53 ∧ (s = 0 ∨ 2 ^ 52 ≤ k) :=
  ⟨r / 2 ^ 52 - 1, r - (r / 2 ^ 52 - 1) * 2 ^ 52, by omega, by omega, by omega⟩

theorem unitsAt_strictMono : StrictMono unitsAt := by
  apply strictMono_nat_of_lt_succ
  intro r
  obtain ⟨s, k, rfl, hk, hs⟩ := exists_shift r
  rw [Nat.add_assoc, unitsAt_add hs hk.le, unitsAt_add (by omega) hk]
  exact Nat.mul_lt_mul_of_pos_right (Nat.lt_succ_self k) (Nat.two_pow_pos s)

/-- Every count with a significand of 53 bits is met, whatever its spacing. -/
theorem exists_unitsAt_eq (s : ℕ) {k : ℕ} (hk : k ≤ 2 ^ 53) : ∃ r, unitsAt r = k * 2 ^ s := by
  induction s generalizing k with
  | zero => exact ⟨0 * 2 ^ 52 + k, unitsAt_add (.inl rfl) hk⟩
  | succ s ih =>
    rcases Nat.lt_or_ge k (2 ^ 52) with h | h
    · obtain ⟨r, hr⟩ := ih (k := 2 * k) (by omega)
      exact ⟨r, by rw [hr, Nat.pow_succ]; ring⟩
    · exact ⟨_, unitsAt_add (.inr h) hk⟩

/-! ## The spacing of a quotient -/

theorem lt_of_shiftOf (n : ℕ) {d : ℕ} (hd : 0 < d) : n < d * 2 ^ (53 + shiftOf n d) := by
  have h1 : n / d < 2 ^ ((n / d).log2 + 1) := Nat.lt_log2_self
  have h2 : 2 ^ ((n / d).log2 + 1) ≤ 2 ^ (53 + shiftOf n d) :=
    Nat.pow_le_pow_right (by omega) (by unfold shiftOf; omega)
  rw [Nat.mul_comm]
  exact (Nat.div_lt_iff_lt_mul hd).mp (h1.trans_le h2)

theorem le_of_shiftOf (n : ℕ) {d : ℕ} (hd : 0 < d) :
    shiftOf n d = 0 ∨ d * 2 ^ (52 + shiftOf n d) ≤ n := by
  rcases Nat.eq_zero_or_pos (shiftOf n d) with h | h
  · exact .inl h
  · right
    have he : 52 + shiftOf n d = (n / d).log2 := by unfold shiftOf at *; omega
    have hq : n / d ≠ 0 := by
      intro h0
      simp [shiftOf, h0] at h
    rw [he, Nat.mul_comm]
    exact (Nat.le_div_iff_mul_le hd).mp (Nat.log2_self_le hq)

/-- A quotient strictly inside a binade has the spacing of that binade. -/
theorem shiftOf_eq {n d s : ℕ} (hd : 0 < d) (hlo : s = 0 ∨ d * 2 ^ (52 + s) ≤ n)
    (hhi : n < d * 2 ^ (53 + s)) : shiftOf n d = s := by
  have hi := lt_of_shiftOf n hd
  have key : ∀ {a b : ℕ}, d * 2 ^ (52 + a) ≤ n → n < d * 2 ^ (53 + b) → a ≤ b := by
    intro a b ha hb
    have := (Nat.pow_lt_pow_iff_right (by omega)).mp (Nat.lt_of_mul_lt_mul_left (ha.trans_lt hb))
    omega
  apply Nat.le_antisymm
  · rcases le_of_shiftOf n hd with h | h
    · omega
    · exact key h hhi
  · rcases hlo with h | h
    · omega
    · exact key h hi

/-! ## Rounding inside a binade -/

section Binade

variable {n d s : ℕ} (hd : 0 < d) (hlo : s = 0 ∨ d * 2 ^ (52 + s) ≤ n) (hhi : n ≤ d * 2 ^ (53 + s))
include hd

include hhi in
theorem halfEven_shift_le : halfEven n (d * 2 ^ s) ≤ 2 ^ 53 := by
  have hD : 0 < d * 2 ^ s := Nat.mul_pos hd (Nat.two_pow_pos s)
  rw [← halfEven_mul (2 ^ 53) hD]
  exact halfEven_le_halfEven (hhi.trans_eq (by rw [Nat.pow_add]; ring))

include hlo in
theorem le_halfEven_shift : s = 0 ∨ 2 ^ 52 ≤ halfEven n (d * 2 ^ s) := by
  have hD : 0 < d * 2 ^ s := Nat.mul_pos hd (Nat.two_pow_pos s)
  apply hlo.imp_right
  intro h
  rw [← halfEven_mul (2 ^ 52) hD]
  exact halfEven_le_halfEven (Eq.trans_le (by rw [Nat.pow_add]; ring) h)

include hlo hhi

theorem nearestRank_eq : nearestRank n d = s * 2 ^ 52 + halfEven n (d * 2 ^ s) := by
  rcases Nat.lt_or_eq_of_le hhi with hlt | rfl
  · unfold nearestRank
    rw [shiftOf_eq hd hlo hlt]
  · -- the upper end lies in the next binade, on twice the spacing
    have hs : shiftOf (d * 2 ^ (53 + s)) d = s + 1 := by
      rw [shiftOf, Nat.mul_div_cancel_left _ hd, Nat.log2_two_pow]; omega
    have h1 : d * 2 ^ (53 + s) = 2 ^ 52 * (d * 2 ^ (s + 1)) := by
      rw [Nat.pow_add, Nat.pow_succ]; ring
    have h2 : d * 2 ^ (53 + s) = 2 ^ 53 * (d * 2 ^ s) := by rw [Nat.pow_add]; ring
    unfold nearestRank
    rw [hs, h1, halfEven_mul _ (Nat.mul_pos hd (Nat.two_pow_pos _)), ← h1, h2,
      halfEven_mul _ (Nat.mul_pos hd (Nat.two_pow_pos _))]
    omega

theorem unitsAt_nearestRank : unitsAt (nearestRank n d) = halfEven n (d * 2 ^ s) * 2 ^ s := by
  rw [nearestRank_eq hd hlo hhi]
  exact unitsAt_add (le_halfEven_shift hd hlo) (halfEven_shift_le hd hhi)

end Binade

/-! ## The rank as a function of the quotient -/

theorem nearestRank_mul_mul_right (n : ℕ) {d c : ℕ} (hc : 0 < c) :
    nearestRank (n * c) (d * c) = nearestRank n d := by
  have hs : shiftOf (n * c) (d * c) = shiftOf n d := by
    unfold shiftOf; rw [Nat.mul_div_mul_right _ _ hc]
  unfold nearestRank
  rw [hs, Nat.mul_right_comm, halfEven_mul_mul_right _ _ hc]

/-- A magnitude is its own rounding. -/
theorem nearestRank_unitsAt (r : ℕ) {c : ℕ} (hc : 0 < c) : nearestRank (unitsAt r * c) c = r := by
  obtain ⟨s, k, rfl, hk, hs⟩ := exists_shift r
  have hp := Nat.two_pow_pos s
  rw [unitsAt_add hs hk.le]
  have e : ∀ i j : ℕ, c * 2 ^ (i + j) = 2 ^ i * (2 ^ j * c) := by
    intro i j
    rw [Nat.pow_add]; ring
  have hlo : s = 0 ∨ c * 2 ^ (52 + s) ≤ k * 2 ^ s * c := by
    apply hs.imp_right
    intro h
    rw [e, Nat.mul_assoc]; exact Nat.mul_le_mul_right _ h
  have hhi : k * 2 ^ s * c ≤ c * 2 ^ (53 + s) := by
    rw [e, Nat.mul_assoc]; exact Nat.mul_le_mul_right _ hk.le
  rw [nearestRank_eq hc hlo hhi, Nat.mul_assoc, Nat.mul_comm (2 ^ s),
    halfEven_mul _ (Nat.mul_pos hc hp)]

/-- The larger quotient has the larger rank. -/
theorem nearestRank_mono {n d n' d' : ℕ} (hd : 0 < d) (hd' : 0 < d') (h : n * d' ≤ n' * d) :
    nearestRank n d ≤ nearestRank n' d' := by
  have hlo := le_of_shiftOf n hd
  have hhi := lt_of_shiftOf n hd
  have hlo' := le_of_shiftOf n' hd'
  have hhi' := lt_of_shiftOf n' hd'
  rw [nearestRank_eq hd hlo hhi.le, nearestRank_eq hd' hlo' hhi'.le]
  have hs : shiftOf n d ≤ shiftOf n' d' := by
    rcases hlo with h0 | hlo
    · omega
    · have h1 : d * 2 ^ (52 + shiftOf n d) * d' < d' * 2 ^ (53 + shiftOf n' d') * d :=
        calc _ ≤ n * d' := Nat.mul_le_mul_right _ hlo
          _ ≤ n' * d := h
          _ < _ := Nat.mul_lt_mul_of_pos_right hhi' hd
      have h2 : d * d' * 2 ^ (52 + shiftOf n d) < d * d' * 2 ^ (53 + shiftOf n' d') := by
        convert h1 using 1 <;> ring
      have := (Nat.pow_lt_pow_iff_right (by omega)).mp (Nat.lt_of_mul_lt_mul_left h2)
      omega
  rcases Nat.lt_or_eq_of_le hs with hlt | heq
  · -- a higher binade starts where the lower one ends
    have h1 := halfEven_shift_le hd hhi.le
    have h2 := (le_halfEven_shift hd' hlo').resolve_left (by omega)
    omega
  · rw [heq]
    refine Nat.add_le_add_left (halfEven_mono (Nat.mul_pos hd (Nat.two_pow_pos _))
      (Nat.mul_pos hd' (Nat.two_pow_pos _)) ?_) _
    rw [← Nat.mul_assoc, ← Nat.mul_assoc]
    exact Nat.mul_le_mul_right _ h

end Coinage.Magnitude
