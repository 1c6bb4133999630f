import Coinage.Binary64.Arithmetic
import Coinage.Proofs.Rounded

/-!
# Operations and the rational numbers they compute on

`Denotes x q` says that `x` is finite and stands for `q`. Each operation on numbers that denote
rational numbers denotes the exact result rounded once, as long as rounding it does not overflow
(`Fits`). So a computation in binary64 arithmetic is followed step by step on the rational side,
and only `rounded` is left to be estimated there.

The sign of a zero result is not visible here; where it matters, `ofRat_eq` has it.
-/
namespace Coinage.Binary64

open Magnitude

/-- Rounding `q` does not overflow. -/
def Fits (q : ℚ) : Prop := rankNear q < 2047 * 2 ^ 52

/-- The magnitude nearest to `|q|`. -/
def Fits.magnitude {q : ℚ} (h : Fits q) : Magnitude := ⟨rankNear q, h⟩

theorem Fits.value_magnitude {q : ℚ} (h : Fits q) : h.magnitude.value = valueAt (rankNear q) :=
  value_eq _

/-- The number is finite and its exact value is `q`. -/
def Denotes (x : Binary64) (q : ℚ) : Prop := x.isFinite = true ∧ x.value = q

theorem denotes_value {x : Binary64} (h : x.isFinite = true) : Denotes x x.value := ⟨h, rfl⟩

/-- The value at the first rank of a binade. -/
theorem valueAt_binade_start (s : ℕ) :
    valueAt (s * 2 ^ 52 + 2 ^ 52) = 2 ^ (52 + ((s : ℤ) - 1074)) := by
  have e := two_zpow_shift 52 s
  rw [Nat.cast_ofNat] at e
  rw [e, valueAt, unitsAt_add (.inr le_rfl) (by omega), ← Nat.pow_add, Nat.cast_pow, Nat.cast_ofNat]

theorem rankNear_abs (q : ℚ) : rankNear |q| = rankNear q := by
  rcases abs_choice q with h | h <;> rw [h]
  exact rankNear_neg q

theorem fits_of_abs_le {q : ℚ} (i : ℕ) (h : |q| ≤ 2 ^ i) (hi : i ≤ 1023) : Fits q := by
  have hv : valueAt (2045 * 2 ^ 52 + 2 ^ 52) = 2 ^ (1023 : ℤ) := valueAt_binade_start 2045
  have hq : |q| ≤ valueAt (2045 * 2 ^ 52 + 2 ^ 52) := by
    rw [hv]
    exact h.trans (by rw [← zpow_natCast]; exact zpow_le_zpow_right₀ one_le_two (by omega))
  have := rankNear_mono (abs_nonneg q) hq
  rw [rankNear_valueAt, rankNear_abs] at this
  unfold Fits
  omega

theorem fits_zero : Fits 0 := fits_of_abs_le 0 (by simp) (by omega)

theorem Denotes.exists_finite {x : Binary64} {q : ℚ} (h : Denotes x q) :
    ∃ s m, x = finite s m ∧ q = if s then -valueAt m.rank else valueAt m.rank := by
  obtain ⟨hf, rfl⟩ := h
  cases x with
  | nan => simp [isFinite] at hf
  | infinite s => simp [isFinite] at hf
  | finite s m => exact ⟨s, m, rfl, by cases s <;> simp [value, value_eq]⟩

theorem Denotes.rounded_eq {x : Binary64} {q : ℚ} (h : Denotes x q) : rounded q = q := by
  obtain ⟨s, m, -, rfl⟩ := h.exists_finite
  cases s <;> simp [rounded_valueAt]

/-! ## Rounding -/

theorem nearest?_eq_some {n d : ℕ} {m : Magnitude} (h : m.rank = nearestRank n d) :
    nearest? n d = some m := by
  have hlt := m.rank_lt
  rw [h] at hlt
  rw [nearest?, dif_pos hlt]
  cases m
  simp_all

theorem Fits.nearest?_eq {q : ℚ} (h : Fits q) :
    nearest? (q.num.natAbs * unitsInOne) q.den = some h.magnitude :=
  nearest?_eq_some rfl

/-- A result that does not overflow, with its sign. -/
theorem ofRat_eq (zeroSign : Bool) {q : ℚ} (h : Fits q) :
    ofRat zeroSign q = finite (if q = 0 then zeroSign else q < 0) h.magnitude := by
  rw [ofRat, h.nearest?_eq]; rfl

/-- A result that overflows, with its sign. -/
theorem ofRat_of_not_fits (zeroSign : Bool) {q : ℚ} (h : ¬Fits q) :
    ofRat zeroSign q = infinite (if q = 0 then zeroSign else q < 0) := by
  have hn : nearest? (q.num.natAbs * unitsInOne) q.den = none := dif_neg h
  rw [ofRat, hn]
  rfl

theorem fits_of_isFinite {zeroSign : Bool} {q : ℚ} (h : (ofRat zeroSign q).isFinite = true) :
    Fits q := by
  by_contra hf
  rw [ofRat_of_not_fits zeroSign hf] at h
  exact Bool.false_ne_true h

theorem denotes_ofRat (zeroSign : Bool) {q : ℚ} (h : Fits q) :
    Denotes (ofRat zeroSign q) (rounded q) := by
  rw [ofRat_eq zeroSign h]
  refine ⟨rfl, ?_⟩
  rcases lt_trichotomy q 0 with hq | rfl | hq
  · simp [hq, hq.ne, value, h.value_magnitude, rounded_of_neg hq]
  · have hr := rounded_of_nonneg (le_refl (0 : ℚ))
    rw [rounded_zero] at hr
    cases zeroSign <;> simp [value, h.value_magnitude, ← hr]
  · simp [hq.not_gt, hq.ne', value, h.value_magnitude, rounded_of_nonneg hq.le]

theorem denotes_ofInt {n : ℤ} (h : Fits n) : Denotes (ofInt n) (rounded n) := denotes_ofRat false h

/-! ## Arithmetic -/

section Arithmetic

variable {x y : Binary64} {p q : ℚ}

theorem neg_finite (s : Bool) (m : Magnitude) : -finite s m = finite (!s) m := rfl

theorem Denotes.neg (hx : Denotes x p) : Denotes (-x) (-p) := by
  obtain ⟨s, m, rfl, -⟩ := hx.exists_finite
  obtain ⟨-, rfl⟩ := hx
  exact ⟨rfl, by cases s <;> simp [neg_finite, value]⟩

theorem Denotes.exists_add_eq (hx : Denotes x p) (hy : Denotes y q) :
    ∃ z, x + y = ofRat z (p + q) := by
  obtain ⟨s, m, rfl, -⟩ := hx.exists_finite
  obtain ⟨t, n, rfl, -⟩ := hy.exists_finite
  exact ⟨s && t, by rw [← hx.2, ← hy.2]; rfl⟩

theorem Denotes.add (hx : Denotes x p) (hy : Denotes y q) (h : Fits (p + q)) :
    Denotes (x + y) (rounded (p + q)) := by
  obtain ⟨z, e⟩ := hx.exists_add_eq hy
  exact e ▸ denotes_ofRat z h

theorem Denotes.sub (hx : Denotes x p) (hy : Denotes y q) (h : Fits (p - q)) :
    Denotes (x - y) (rounded (p - q)) := by
  rw [sub_eq_add_neg] at h ⊢
  exact hx.add hy.neg h

theorem Denotes.exists_mul_eq (hx : Denotes x p) (hy : Denotes y q) :
    ∃ z, x * y = ofRat z (p * q) := by
  obtain ⟨s, m, rfl, -⟩ := hx.exists_finite
  obtain ⟨t, n, rfl, -⟩ := hy.exists_finite
  exact ⟨s ^^ t, by rw [← hx.2, ← hy.2]; rfl⟩

theorem Denotes.mul (hx : Denotes x p) (hy : Denotes y q) (h : Fits (p * q)) :
    Denotes (x * y) (rounded (p * q)) := by
  obtain ⟨z, e⟩ := hx.exists_mul_eq hy
  exact e ▸ denotes_ofRat z h

theorem Denotes.rank_ne_zero {s : Bool} {m : Magnitude} (hx : Denotes (finite s m) p) (hp : p ≠ 0) :
    m.rank ≠ 0 := by
  intro h
  apply hp
  rw [← hx.2]
  cases s <;> simp [value, value_eq, h, valueAt_zero]

theorem Denotes.exists_div_eq (hx : Denotes x p) (hy : Denotes y q) (hq : q ≠ 0) :
    ∃ z, x / y = ofRat z (p / q) := by
  obtain ⟨s, m, rfl, -⟩ := hx.exists_finite
  obtain ⟨t, n, rfl, -⟩ := hy.exists_finite
  refine ⟨s ^^ t, ?_⟩
  rw [← hx.2, ← hy.2]
  exact if_neg (hy.rank_ne_zero hq)

theorem Denotes.div (hx : Denotes x p) (hy : Denotes y q) (hq : q ≠ 0) (h : Fits (p / q)) :
    Denotes (x / y) (rounded (p / q)) := by
  obtain ⟨z, e⟩ := hx.exists_div_eq hy hq
  exact e ▸ denotes_ofRat z h

end Arithmetic

/-! ## Constants and comparison -/

theorem denotes_ofInt_of_abs_le {n : ℤ} (h : |n| ≤ 2 ^ 53) : Denotes (ofInt n) n := by
  have hf : Fits n := fits_of_abs_le 53 (by exact_mod_cast h) (by omega)
  have := denotes_ofInt hf
  rwa [rounded_intCast h] at this

theorem denotes_zero : Denotes zero 0 := by
  have h := denotes_ofInt_of_abs_le (n := 0) (by decide)
  rwa [Int.cast_zero] at h

theorem denotes_one : Denotes (ofInt 1) 1 := by
  have h := denotes_ofInt_of_abs_le (n := 1) (by decide)
  rwa [Int.cast_one] at h

theorem denotes_half : Denotes half (1 / 2) := by
  have e : mkRat 1 2 = (1 / 2 : ℚ) := by norm_num [Rat.mkRat_eq_div]
  have hf : Fits (1 / 2) := fits_of_abs_le 0 (by norm_num) (by omega)
  have h := denotes_ofRat false hf
  rw [rounded_eq_self 1 (-1) (by norm_num) (by decide) (by decide)] at h
  rwa [half, e]

theorem ordinal?_zero : zero.ordinal? = some 0 := by decide +kernel

theorem ordinal?_finite (s : Bool) (m : Magnitude) :
    (finite s m).ordinal? = some (if s then -(m.rank : Int) else m.rank) := rfl

theorem Denotes.lt_zero_iff {x : Binary64} {q : ℚ} (hx : Denotes x q) : x < zero ↔ q < 0 := by
  obtain ⟨s, m, rfl, rfl⟩ := hx.exists_finite
  have hpos : 0 < valueAt m.rank ↔ 0 < m.rank := by
    rw [← valueAt_strictMono.lt_iff_lt, valueAt_zero]
  have h0 := valueAt_nonneg m.rank
  simp only [lt_iff, ordinal?_finite, ordinal?_zero, Option.some.injEq, exists_and_left,
    exists_eq_left']
  cases s
  · simp [h0.not_gt]
  · simp [hpos]

end Coinage.Binary64
