import Coinage.Proofs.Products

/-!
# Entered numbers in all encodings

Of the numbers that 64 bits encode only `nan` and the infinities are refused, each with one record
and the number itself in the fault. A finite number is always entered and leaves no record. What it
stands for in Hao is looked at only afterwards, so a number of coins whose product with the Hao of a
coin overflows ends like every other number beyond the range, at the end on its side. Well inside
the range neither end is reached.

Results.

* `ofNumber_of_not_isFinite`: what is refused, and how.
* `haoNear_mem`: where neither end of the range is reached.
* `ofNumber_classification`: every encoding, as coins and as Hao.
-/
namespace Coinage

theorem Binary64.isFinite_eq_false_iff {x : Binary64} :
    x.isFinite = false ↔ x = nan ∨ ∃ s, x = infinite s := by
  cases x <;> simp [isFinite]

namespace Amount

open Binary64

variable {q : ℚ} {x : Binary64}

/-! ## Refused numbers -/

theorem ofNumber_of_not_isFinite (basis : Basis) (h : x.isFinite = false) :
    ofNumber basis x = .noting ("Rejecting amount " ++ x.text) (.error (.invalidAmount x)) :=
  if_neg (by simp [h])

theorem ofNumber_error_iff (basis : Basis) :
    (∃ fault, (ofNumber basis x).result = .error fault) ↔ x.isFinite = false := by
  constructor
  · rintro ⟨fault, h⟩
    by_contra hf
    obtain ⟨r, hr, -⟩ := exists_ofNumber basis (eq_true_of_ne_false hf)
    rw [hr] at h
    cases h
  · intro h
    rw [ofNumber_of_not_isFinite basis h]
    exact ⟨_, rfl⟩

/-! ## Inside the range -/

/-- From `2^53` on a half is lost, so a power of two is kept. -/
theorem wholeHao_two_pow {i : ℕ} (h : 53 ≤ i) : wholeHao (2 ^ i) = 2 ^ i := by
  have hle : (2 : ℚ) ^ 53 ≤ 2 ^ i := pow_le_pow_right₀ one_le_two h
  rw [wholeHao_of_nonneg (by positivity), rounded_add_half (rounded_two_pow i) hle]
  exact_mod_cast Int.floor_intCast (R := ℚ) (2 ^ i)

theorem abs_wholeHao_rounded_le {i : ℕ} (hi : 53 ≤ i) (h : |q| ≤ 2 ^ i) :
    |wholeHao (rounded q)| ≤ 2 ^ i := by
  obtain ⟨lower, upper⟩ := abs_le.mp (abs_rounded_le (rounded_two_pow i) h)
  have below := wholeHao_le_wholeHao lower
  have above := wholeHao_le_wholeHao upper
  rw [wholeHao_neg, wholeHao_two_pow hi] at below
  rw [wholeHao_two_pow hi] at above
  exact abs_le.mpr ⟨below, above⟩

/-- Half of the range from zero neither end is reached. -/
theorem haoNear_mem (h : |q| ≤ 2 ^ 62) : -2 ^ 63 < haoNear q ∧ haoNear q < 2 ^ 63 - 1 := by
  have bound := abs_le.mp (abs_wholeHao_rounded_le (by omega) h)
  unfold haoNear
  omega

/-! ## All encodings -/

theorem exists_ofNumber_range (basis : Basis) (hx : x.isFinite = true) :
    ∃ r, ofNumber basis x = .silent (.ok r) ∧
      (2 ^ 63 ≤ x.value * basis.haoPerUnit → r = greatest) ∧
      (x.value * basis.haoPerUnit ≤ -2 ^ 63 → r = least) ∧
      (|x.value * basis.haoPerUnit| < 2 ^ 62 → least < r ∧ r < greatest) := by
  obtain ⟨r, hr, e⟩ := exists_ofNumber basis hx
  refine ⟨r, hr, fun h => ?_, fun h => ?_, fun h => ?_⟩
  · rw [haoNear_of_le h] at e
    exact hao_inj.mp e
  · rw [haoNear_of_le_neg h] at e
    exact hao_inj.mp e
  · have inside := haoNear_mem h.le
    rw [← e] at inside
    exact inside

/-- Every encoding, entered as coins and as Hao. Only `nan` and the infinities are refused, as the
invalid amount that they are and with one record. All encodings of `nan` are one number here, so
which of them was entered, its sign and its payload, is not in the fault. A finite number gives an
amount and no record: the end of the range on its side from `2^63` Hao on, and neither end below
`2^62` Hao. -/
theorem ofNumber_classification (basis : Basis) (bits : UInt64) :
    ((∃ fault, (ofNumber basis (.ofBits bits)).result = .error fault) ↔
      ofBits bits = nan ∨ ∃ s, ofBits bits = infinite s) ∧
    (∀ fault, (ofNumber basis (.ofBits bits)).result = .error fault →
      fault = .invalidAmount (.ofBits bits) ∧
      (ofNumber basis (.ofBits bits)).debug = ["Rejecting amount " ++ (ofBits bits).text]) ∧
    ((ofBits bits).isFinite = true →
      ∃ r, ofNumber basis (.ofBits bits) = .silent (.ok r) ∧
        (2 ^ 63 ≤ (ofBits bits).value * basis.haoPerUnit → r = greatest) ∧
        ((ofBits bits).value * basis.haoPerUnit ≤ -2 ^ 63 → r = least) ∧
        (|(ofBits bits).value * basis.haoPerUnit| < 2 ^ 62 →
          least < r ∧ r < greatest)) := by
  refine ⟨(ofNumber_error_iff basis).trans isFinite_eq_false_iff, fun fault h => ?_,
    exists_ofNumber_range basis⟩
  have refused := ofNumber_of_not_isFinite basis ((ofNumber_error_iff basis).mp ⟨fault, h⟩)
  rw [refused] at h ⊢
  cases h
  exact ⟨rfl, rfl⟩

/-- A number of coins whose number of Hao overflows, half a coin below nothing, and an infinity. -/
theorem ofNumber_classification_overflow :
    (∃ r, ofNumber .coin (.ofBits 0x7fe0000000000000) = .silent (.ok r) ∧ r = greatest) ∧
    (∃ r, ofNumber .coin (.ofBits 0xbfe0000000000000) = .silent (.ok r) ∧ least < r) ∧
    (ofNumber .hao (.ofBits 0xfff0000000000000)).debug =
      ["Rejecting amount " ++ (ofBits 0xfff0000000000000).text] := by
  refine ⟨?_, ?_, ?_⟩
  · obtain ⟨r, hr, above, -⟩ :=
      (ofNumber_classification .coin 0x7fe0000000000000).2.2 (by decide +kernel)
    exact ⟨r, hr, above (by decide +kernel)⟩
  · obtain ⟨r, hr, -, -, inside⟩ :=
      (ofNumber_classification .coin 0xbfe0000000000000).2.2 (by decide +kernel)
    exact ⟨r, hr, (inside (by decide +kernel)).1⟩
  · exact ((ofNumber_classification .hao 0xfff0000000000000).2.1
      (.invalidAmount (infinite true)) (by decide +kernel)).2

end Amount

end Coinage
