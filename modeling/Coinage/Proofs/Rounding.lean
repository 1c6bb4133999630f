import Coinage.Rounding
import Mathlib.Data.Rat.Lemmas
import Mathlib.Tactic.FieldSimp
import Mathlib.Tactic.Linarith
import Mathlib.Tactic.Positivity
import Mathlib.Tactic.Ring

/-!
# Rounding rational numbers to whole ones

`halfEven n d` depends on the quotient alone (`halfEven_mul_mul_right`) and grows with it
(`halfEven_mono`). That allows it to be read as a function of a rational number: `wholeNear q` is
the whole number nearest to `|q|`, and `wholeNear_div` is the bridge.

Results, for `q` not below zero.

* `abs_wholeNear_sub_le`: the result is within one half.
* `abs_wholeNear_sub_le_abs`: no whole number is nearer.
* `wholeNear_eq`, `wholeNear_tie`, `wholeNear_eq_iff_of_even`: the result from the place of `q`
  between whole numbers.
-/
namespace Coinage

/-! ## Quotients of naturals -/

theorem halfEven_mul_mul_right (n d : Nat) {c : Nat} (hc : 0 < c) :
    halfEven (n * c) (d * c) = halfEven n d := by
  have below : 2 * (n * c % (d * c)) < d * c ↔ 2 * (n % d) < d := by
    rw [Nat.mul_mod_mul_right, ← Nat.mul_assoc, Nat.mul_lt_mul_right hc]
  have tie : 2 * (n * c % (d * c)) = d * c ↔ 2 * (n % d) = d := by
    rw [Nat.mul_mod_mul_right, ← Nat.mul_assoc, Nat.mul_left_inj (by omega)]
  simp only [halfEven, below, tie, Nat.mul_div_mul_right _ _ hc]

theorem halfEven_le_halfEven {n n' d : Nat} (h : n ≤ n') : halfEven n d ≤ halfEven n' d := by
  have hq : n / d ≤ n' / d := Nat.div_le_div_right h
  have hn := Nat.div_add_mod n d
  have hn' := Nat.div_add_mod n' d
  unfold halfEven
  rcases Nat.lt_or_eq_of_le hq with hlt | heq
  · split <;> split <;> omega
  · rw [heq] at hn ⊢
    split <;> split <;> omega

/-- The larger quotient has the larger rounding. -/
theorem halfEven_mono {n d n' d' : Nat} (hd : 0 < d) (hd' : 0 < d') (h : n * d' ≤ n' * d) :
    halfEven n d ≤ halfEven n' d' := by
  rw [← halfEven_mul_mul_right n d hd', ← halfEven_mul_mul_right n' d' hd, Nat.mul_comm d' d]
  exact halfEven_le_halfEven h

/-! ## Rational numbers -/

/-- A quotient of naturals is its reduced form times a common factor. -/
theorem exists_common_factor (n : ℕ) {d : ℕ} (hd : 0 < d) :
    ∃ c, 0 < c ∧ n = ((n : ℚ) / d).num.natAbs * c ∧ d = ((n : ℚ) / d).den * c := by
  obtain ⟨c, hn, hden⟩ := Rat.exists_eq_mul_div_num_and_eq_mul_div_den n (d := d) (by omega)
  simp only [Int.cast_natCast] at hn hden
  refine ⟨c.natAbs, ?_, ?_, ?_⟩
  · rcases eq_or_ne c 0 with rfl | h
    · simp only [zero_mul] at hden; omega
    · omega
  · have := congrArg Int.natAbs hn
    rwa [Int.natAbs_mul, Int.natAbs_natCast, Nat.mul_comm] at this
  · have := congrArg Int.natAbs hden
    rwa [Int.natAbs_mul, Int.natAbs_natCast, Int.natAbs_natCast, Nat.mul_comm] at this

/-- The whole number nearest to `|q|`, the even one of two that are equally near. -/
def wholeNear (q : ℚ) : ℕ := halfEven q.num.natAbs q.den

theorem wholeNear_div (n : ℕ) {d : ℕ} (hd : 0 < d) : wholeNear (n / d) = halfEven n d := by
  obtain ⟨c, hc, hn, hden⟩ := exists_common_factor n hd
  calc wholeNear (n / d)
      = halfEven (((n : ℚ) / d).num.natAbs * c) (((n : ℚ) / d).den * c) :=
        (halfEven_mul_mul_right _ _ hc).symm
    _ = halfEven n d := by rw [← hn, ← hden]

/-- A rational number that is not negative, as a quotient of naturals. -/
theorem exists_eq_div {q : ℚ} (h : 0 ≤ q) : ∃ n d : ℕ, 0 < d ∧ q = n / d := by
  refine ⟨q.num.natAbs, q.den, q.den_pos, ?_⟩
  have : ((q.num.natAbs : ℤ) : ℚ) = q.num := by
    rw [Int.natAbs_of_nonneg (Rat.num_nonneg.mpr h)]
  rw [← Int.cast_natCast, this, Rat.num_div_den]

theorem wholeNear_mono {p q : ℚ} (hp : 0 ≤ p) (h : p ≤ q) : wholeNear p ≤ wholeNear q := by
  obtain ⟨n, d, hd, rfl⟩ := exists_eq_div hp
  obtain ⟨n', d', hd', rfl⟩ := exists_eq_div (hp.trans h)
  rw [wholeNear_div n hd, wholeNear_div n' hd']
  apply halfEven_mono hd hd'
  rw [div_le_div_iff₀ (by positivity) (by positivity)] at h
  exact_mod_cast h

theorem abs_wholeNear_sub_le {q : ℚ} (h : 0 ≤ q) : |(wholeNear q : ℚ) - q| ≤ 1 / 2 := by
  obtain ⟨n, d, hd, rfl⟩ := exists_eq_div h
  rw [wholeNear_div n hd, abs_le]
  have h1 : (2 * (halfEven n d * d) : ℚ) ≤ 2 * n + d := by exact_mod_cast halfEven_le n hd
  have h2 : (2 * n : ℚ) ≤ 2 * (halfEven n d * d) + d := by exact_mod_cast le_halfEven n hd
  have hd' : (0 : ℚ) < d := by exact_mod_cast hd
  constructor
  · rw [neg_le_sub_iff_le_add, div_le_iff₀ hd']; linarith
  · rw [sub_le_iff_le_add, ← sub_le_iff_le_add', le_div_iff₀ hd']; linarith

/-- A distance, counted in multiples of `p`. -/
theorem abs_mul_sub {p : ℚ} (hp : 0 < p) (x q : ℚ) : |x * p - q| = |x - q / p| * p := by
  rw [← abs_of_pos hp, ← abs_mul, abs_of_pos hp, sub_mul, div_mul_cancel₀ _ hp.ne']

/-- A rational number within less than one half of a whole number goes there. -/
theorem wholeNear_eq {q : ℚ} {k : ℕ} (h0 : 0 ≤ q) (h : |q - k| < 1 / 2) : wholeNear q = k := by
  have h1 := abs_le.mp (abs_wholeNear_sub_le h0)
  have h2 := abs_lt.mp h
  have lo : (k : ℚ) < wholeNear q + 1 := by linarith
  have hi : (wholeNear q : ℚ) < k + 1 := by linarith
  have lo' : k < wholeNear q + 1 := by exact_mod_cast lo
  have hi' : wholeNear q < k + 1 := by exact_mod_cast hi
  omega

theorem wholeNear_natCast (k : ℕ) : wholeNear k = k :=
  wholeNear_eq (Nat.cast_nonneg k) (by norm_num)

theorem wholeNear_le {q : ℚ} {k : ℕ} (h0 : 0 ≤ q) (h : q ≤ k) : wholeNear q ≤ k := by
  have hm := wholeNear_mono h0 h
  rwa [wholeNear_natCast] at hm

theorem le_wholeNear {q : ℚ} {k : ℕ} (h : k ≤ q) : k ≤ wholeNear q := by
  have hm := wholeNear_mono (Nat.cast_nonneg k) h
  rwa [wholeNear_natCast] at hm

/-- Halfway between `k` and its successor, the even one of them. -/
theorem wholeNear_tie (k : ℕ) : wholeNear (k + 1 / 2) = if k % 2 = 0 then k else k + 1 := by
  have e : (k + 1 / 2 : ℚ) = ((2 * k + 1 : ℕ) : ℚ) / (2 : ℕ) := by push_cast; ring
  rw [e, wholeNear_div _ (by omega)]
  have hm : (2 * k + 1) % 2 = 1 := by omega
  have hq : (2 * k + 1) / 2 = k := by omega
  simp [halfEven, hm, hq]

theorem wholeNear_le_iff_of_even {q : ℚ} {k : ℕ} (h0 : 0 ≤ q) (hk : k % 2 = 0) :
    wholeNear q ≤ k ↔ q ≤ k + 1 / 2 := by
  constructor
  · intro h
    have hw := (abs_le.mp (abs_wholeNear_sub_le h0)).1
    have hc : (wholeNear q : ℚ) ≤ k := by exact_mod_cast h
    linarith
  · intro h
    have hm := wholeNear_mono h0 h
    rwa [wholeNear_tie, if_pos hk] at hm

theorem le_wholeNear_of_even {q : ℚ} {k : ℕ} (hk : k % 2 = 0) (h : k ≤ q + 1 / 2) :
    k ≤ wholeNear q := by
  cases k with
  | zero => exact Nat.zero_le _
  | succ j =>
    push_cast at h
    have hm := wholeNear_mono (by positivity) (show (j + 1 / 2 : ℚ) ≤ q by linarith)
    rwa [wholeNear_tie, if_neg (by omega)] at hm

/-- An even whole number is the rounding of all that is within one half of it. -/
theorem wholeNear_eq_iff_of_even {q : ℚ} {k : ℕ} (h0 : 0 ≤ q) (hk : k % 2 = 0) :
    wholeNear q = k ↔ |q - k| ≤ 1 / 2 := by
  constructor
  · intro h
    rw [← h, abs_sub_comm]
    exact abs_wholeNear_sub_le h0
  · intro h
    obtain ⟨h1, h2⟩ := abs_le.mp h
    exact le_antisymm ((wholeNear_le_iff_of_even h0 hk).mpr (by linarith))
      (le_wholeNear_of_even hk (by linarith))

/-- No whole number is nearer than the rounding. -/
theorem abs_wholeNear_sub_le_abs {q : ℚ} (h : 0 ≤ q) (k : ℤ) :
    |(wholeNear q : ℚ) - q| ≤ |k - q| := by
  have hw := abs_wholeNear_sub_le h
  by_cases hk : k = wholeNear q
  · rw [hk, Int.cast_natCast]
  · have far : (1 : ℚ) ≤ |(k : ℚ) - wholeNear q| := by
      have : (1 : ℤ) ≤ |k - wholeNear q| := Int.one_le_abs (sub_ne_zero.mpr hk)
      exact_mod_cast this
    have tri := abs_sub_le (k : ℚ) q (wholeNear q)
    rw [abs_sub_comm q] at tri
    linarith

end Coinage
