import Coinage.Proofs.PowerRange

/-!
# Amounts in all denominations

The Hao in a unit grow with the denomination from zero to infinity. So a greater amount is shown as
a greater number, and a greater denomination never shows a greater magnitude, also where
neighbouring powers of ten are computed along different products and where the number is a zero or
an infinity.

Where the Hao in a unit become zero or infinite, an amount becomes an infinity or a zero with its
own sign, and nothing at all in a unit without Hao is no number. In between the number is a zero
only for nothing. Order also says where it does not overflow: the ends of the range of amounts in
the `finest` of these denominations are bounds for every amount in every greater one.

Results.

* `toUnit_mono`, `toUnit_le_of_pos`, `le_toUnit_of_neg`: the amount and the denomination in order.
* `toUnit_keeps_order`: both for all amounts and denominations.
* `toUnit_isFinite_of_finest_le`: where no amount overflows.
* `toUnit_classification`: no number, zeros, infinities, finite numbers and signs.
-/
namespace Coinage

namespace Binary64

/-- The sign is the leading bit of the encoding. -/
theorem HasSign.testBit_toBits {s : Bool} {x : Binary64} (h : HasSign s x) :
    x.toBits.toNat.testBit 63 = s := by
  rcases h with rfl | ⟨m, rfl⟩
  · cases s <;> decide
  · have hm : m.rank < 2 ^ 63 := by
      have := m.rank_lt
      omega
    cases s with
    | false =>
      show (UInt64.ofNat m.rank).toNat.testBit 63 = false
      rw [UInt64.toNat_ofNat_of_lt' (show m.rank < 2 ^ 64 by omega)]
      exact Nat.testBit_lt_two_pow hm
    | true =>
      show (UInt64.ofNat (2 ^ 63 + m.rank)).toNat.testBit 63 = true
      rw [UInt64.toNat_ofNat_of_lt' (show 2 ^ 63 + m.rank < 2 ^ 64 by omega),
        Nat.testBit_two_pow_add_eq,
        Nat.testBit_lt_two_pow hm]
      rfl

end Binary64

namespace Amount

open Binary64

variable {a b : Amount} {u v : Denomination}

/-! ## Order -/

theorem haoPer_mono (h : u ≤ v) : haoPer u ≤ haoPer v :=
  powerOfTen_mono (Int.add_le_add_right h baseExponent)

theorem toUnit_mono (h : a ≤ b) (ha : a.toUnit u ≠ nan) (hb : b.toUnit u ≠ nan) :
    a.toUnit u ≤ b.toUnit u := by
  have hle : (a.hao : ℚ) ≤ b.hao := by exact_mod_cast h
  exact div_le_div_of_denotes a.denotes_hao b.denotes_hao (rounded_mono hle) (haoPer_hasSign u)
    ha hb

theorem rounded_hao_pos (h : 0 < a.hao) : 0 < rounded a.hao :=
  one_pos.trans_le (one_le_rounded (by exact_mod_cast h))

theorem rounded_hao_neg (h : a.hao < 0) : rounded a.hao < 0 := by
  have hle : rounded a.hao ≤ rounded 0 := rounded_mono (by exact_mod_cast h.le)
  rw [rounded_zero] at hle
  exact lt_of_le_of_ne hle (rounded_hao_ne_zero h.ne)

/-- A greater denomination shows a positive amount as a smaller number. -/
theorem toUnit_le_of_pos (ha : 0 < a.hao) (h : u ≤ v) : a.toUnit v ≤ a.toUnit u :=
  div_le_div_of_divisor_le a.denotes_hao (rounded_hao_pos ha) (haoPer_hasSign u) (haoPer_hasSign v)
    (haoPer_mono h)

theorem le_toUnit_of_neg (ha : a.hao < 0) (h : u ≤ v) : a.toUnit u ≤ a.toUnit v :=
  div_le_div_of_divisor_le_of_neg a.denotes_hao (rounded_hao_neg ha) (haoPer_hasSign u)
    (haoPer_hasSign v) (haoPer_mono h)

/-- Amounts are shown in order, and a greater denomination never shows a greater magnitude. -/
theorem toUnit_keeps_order :
    (∀ (a b : Amount) (u : Denomination), a ≤ b → a.toUnit u ≠ nan → b.toUnit u ≠ nan →
      a.toUnit u ≤ b.toUnit u) ∧
    (∀ (a : Amount) (u v : Denomination), u ≤ v →
      (0 < a.hao → a.toUnit v ≤ a.toUnit u) ∧ (a.hao < 0 → a.toUnit u ≤ a.toUnit v)) :=
  ⟨fun _ _ _ => toUnit_mono, fun _ _ _ h => ⟨(toUnit_le_of_pos · h), (le_toUnit_of_neg · h)⟩⟩

/-- The ends of the range, counted in Hao and in millions of coins. -/
theorem toUnit_keeps_order_ends : least.toUnit .hao ≤ greatest.toUnit .hao ∧
    greatest.toUnit .mega ≤ greatest.toUnit .hao ∧ least.toUnit .hao ≤ least.toUnit .mega :=
  ⟨toUnit_keeps_order.1 least greatest .hao (by decide) (by decide +kernel) (by decide +kernel),
    (toUnit_keeps_order.2 greatest .hao .mega (by decide)).1 (by decide),
    (toUnit_keeps_order.2 least .hao .mega (by decide)).2 (by decide)⟩

/-! ## The three ranges -/

theorem haoPer_eq_infinite (h : 301 ≤ u.exponent.value) : haoPer u = infinite false :=
  powerOfTen_eq_infinite (by unfold baseExponent; omega)

/-- Up to `10^300` coins the Hao in a unit are a finite number, and zero up to `10^-317` coins. -/
theorem exists_haoPer_eq (h : u.exponent.value ≤ 300) :
    ∃ m, haoPer u = finite false m ∧ (m.rank = 0 ↔ u.exponent.value ≤ -317) := by
  unfold haoPer baseExponent
  by_cases hu : u.exponent.value ≤ -317
  · exact ⟨_, powerOfTen_eq_zero (by omega), by simp [hu, Magnitude.zero]⟩
  · obtain ⟨m, power, hm⟩ := exists_powerOfTen_eq (e := u.exponent.value + 8) (by omega) (by omega)
    exact ⟨m, power, by simp [hu, hm]⟩

theorem one_le_abs_rounded_hao (h : a.hao ≠ 0) : 1 ≤ |rounded a.hao| :=
  le_abs_rounded rounded_one (by exact_mod_cast Int.one_le_abs h)

/-- Without Hao in the unit. -/
theorem toUnit_of_le (a : Amount) (h : u.exponent.value ≤ -317) :
    a.toUnit u = if rounded a.hao = 0 then nan else infinite (rounded a.hao < 0) := by
  obtain ⟨m, unit, hm⟩ := exists_haoPer_eq (u := u) (by omega)
  rw [toUnit, unit]
  exact a.denotes_hao.div_zero (hm.mpr h)

theorem denotes_toUnit_of_hao_eq_zero (h0 : a.hao = 0) (h : -316 ≤ u.exponent.value) :
    Denotes (a.toUnit u) 0 := by
  have nothing := a.denotes_hao
  rcases le_or_gt 301 u.exponent.value with hu | hu
  · rw [toUnit, haoPer_eq_infinite hu]
    exact nothing.div_infinite false
  · obtain ⟨m, unit, hm⟩ := exists_haoPer_eq (u := u) (by omega)
    rw [h0, Int.cast_zero, rounded_zero] at nothing
    rw [toUnit, unit, h0]
    exact nothing.zero_div_finite (by omega)

theorem toUnit_eq_nan_iff : a.toUnit u = nan ↔ a.hao = 0 ∧ u.exponent.value ≤ -317 := by
  constructor
  · intro h
    have h0 : a.hao = 0 := by_contra fun h0 => (toUnit_hasSign h0 u).ne_nan h
    refine ⟨h0, by_contra fun hu => ?_⟩
    have hf := (denotes_toUnit_of_hao_eq_zero (u := u) h0 (by omega)).1
    rw [h] at hf
    cases hf
  · rintro ⟨h0, hu⟩
    rw [toUnit_of_le a hu, h0, Int.cast_zero, rounded_zero, if_pos rfl]

theorem denotes_toUnit_zero_iff : Denotes (a.toUnit u) 0 ↔
    a.hao = 0 ∧ -316 ≤ u.exponent.value ∨ a.hao ≠ 0 ∧ 301 ≤ u.exponent.value := by
  constructor
  · intro h
    by_cases h0 : a.hao = 0
    · refine .inl ⟨h0, by_contra fun hu => ?_⟩
      have hf := h.1
      rw [toUnit_eq_nan_iff.mpr ⟨h0, by omega⟩] at hf
      cases hf
    · refine .inr ⟨h0, by_contra fun hu => ?_⟩
      obtain ⟨m, unit, -⟩ := exists_haoPer_eq (u := u) (by omega)
      rw [toUnit, unit] at h
      exact a.denotes_hao.not_denotes_div_zero (one_le_abs_rounded_hao h0) m h
  · rintro (⟨h0, hu⟩ | ⟨-, hu⟩)
    · exact denotes_toUnit_of_hao_eq_zero h0 hu
    · rw [toUnit, haoPer_eq_infinite hu]
      exact a.denotes_hao.div_infinite false

theorem toUnit_eq_infinite (h0 : a.hao ≠ 0) (h : u.exponent.value ≤ -317) :
    a.toUnit u = infinite (a.hao < 0) := by
  have sign := toUnit_hasSign h0 u
  rw [toUnit_of_le a h, if_neg (rounded_hao_ne_zero h0)] at sign ⊢
  rw [hasSign_infinite.mp sign]

/-- The least denomination in which every amount is a finite number. -/
def finest : Denomination := ⟨⟨-297, by decide, by decide⟩⟩

theorem toUnit_isFinite_of_finest_le (a : Amount) (h : finest ≤ u) :
    (a.toUnit u).isFinite = true := by
  have hu : -297 ≤ u.exponent.value := h
  have number (b : Amount) : b.toUnit u ≠ nan := by
    rw [Ne, toUnit_eq_nan_iff]
    omega
  have lower : least.toUnit finest ≤ a.toUnit u := Binary64.le_trans
    (le_toUnit_of_neg (by decide) h) (toUnit_mono a.lower (number least) (number a))
  have upper : a.toUnit u ≤ greatest.toUnit finest := Binary64.le_trans
    (toUnit_mono a.upper (number a) (number greatest)) (toUnit_le_of_pos (by decide) h)
  exact isFinite_of_le_of_le lower upper (by decide +kernel) (by decide +kernel)

/-- One step below, the greatest amount overflows. -/
example : greatest.toUnit ⟨⟨-298, by decide, by decide⟩⟩ = infinite false := by decide +kernel

/-- What an amount is shown as: no number, a zero, an infinity or a finite number, and the sign. -/
theorem toUnit_classification (a : Amount) (u : Denomination) :
    (a.toUnit u = nan ↔ a.hao = 0 ∧ u.exponent.value ≤ -317) ∧
    (Denotes (a.toUnit u) 0 ↔
      a.hao = 0 ∧ -316 ≤ u.exponent.value ∨ a.hao ≠ 0 ∧ 301 ≤ u.exponent.value) ∧
    (a.hao ≠ 0 → u.exponent.value ≤ -317 → a.toUnit u = infinite (a.hao < 0)) ∧
    (-297 ≤ u.exponent.value → (a.toUnit u).isFinite = true) ∧
    (a.toUnit u ≠ nan → ((a.toUnit u).toBits.toNat.testBit 63 = true ↔ a.hao < 0)) := by
  refine ⟨toUnit_eq_nan_iff, denotes_toUnit_zero_iff, toUnit_eq_infinite,
    toUnit_isFinite_of_finest_le a, fun h => ?_⟩
  have sign := (a.toUnit_cases u).resolve_left fun e => h e.2
  rw [sign.testBit_toBits, decide_eq_true_iff]

/-- The least amount in a unit without Hao, and in one where it is still finite. -/
theorem toUnit_classification_least :
    least.toUnit ⟨⟨-317, by decide, by decide⟩⟩ = infinite true ∧
    (least.toUnit finest).isFinite = true ∧
    ((least.toUnit finest).toBits.toNat.testBit 63 = true ↔ least.hao < 0) :=
  ⟨(toUnit_classification least ⟨⟨-317, by decide, by decide⟩⟩).2.2.1 (by decide) (by decide),
    (toUnit_classification least finest).2.2.2.1 (by decide),
    (toUnit_classification least finest).2.2.2.2 (by decide +kernel)⟩

end Amount

end Coinage
