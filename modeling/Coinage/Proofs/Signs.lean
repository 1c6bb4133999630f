import Coinage.Proofs.LargeUnits

/-!
# Signs

Every number but `nan` has a sign, zeros and infinities included. A quotient that is a number has
the sign that its operands give it, and the Hao in a unit of a denomination have none. So an
amount is shown with its own sign in every denomination, also where the number is a zero or an
infinity; only nothing at all, in a denomination without bounds, is no number.

Results.

* `hasSign_ofRat`: the sign of a rounded number.
* `HasSign.div`: the sign of a quotient.
* `toUnit_cases`: an amount in a denomination.
-/
namespace Coinage

namespace Binary64

open Magnitude

/-- A number with this sign; `nan` has none. -/
def HasSign (negative : Bool) (x : Binary64) : Prop :=
  x = infinite negative ∨ ∃ m, x = finite negative m

variable {x y : Binary64} {s t : Bool}

@[simp] theorem not_hasSign_nan : ¬ HasSign s nan := by simp [HasSign]

@[simp] theorem hasSign_infinite : HasSign s (infinite t) ↔ t = s := by simp [HasSign]

@[simp] theorem hasSign_finite {m : Magnitude} : HasSign s (finite t m) ↔ t = s := by
  simp [HasSign]

theorem HasSign.ne_nan (h : HasSign s x) : x ≠ nan := by
  intro e
  simp [e] at h

theorem hasSign_orInfinite (s : Bool) (m : Option Magnitude) : HasSign s (orInfinite s m) := by
  cases m <;> simp [orInfinite]

theorem hasSign_ofRat (zeroSign : Bool) (q : ℚ) :
    HasSign (if q = 0 then zeroSign else q < 0) (ofRat zeroSign q) := by
  rw [ofRat]
  exact hasSign_orInfinite _ _

theorem hasSign_ofInt (n : ℤ) : HasSign (n < 0) (ofInt n) := by
  have h := hasSign_ofRat false n
  have hs : (if (n : ℚ) = 0 then false else decide ((n : ℚ) < 0)) = decide (n < 0) := by
    by_cases h0 : n = 0 <;> simp [h0]
  rwa [hs] at h

theorem AtLeastOne.hasSign (h : AtLeastOne x) : HasSign false x := by
  rcases h with h | ⟨m, h, -⟩
  · simp [h]
  · simp [h]

/-! ## Quotients -/

theorem value_pos {m : Magnitude} (h : m.rank ≠ 0) : 0 < m.value := by
  rw [value_eq, ← valueAt_zero]
  exact valueAt_strictMono (Nat.pos_of_ne_zero h)

theorem value_finite (s : Bool) (m : Magnitude) :
    (finite s m).value = if s then -m.value else m.value := by
  cases s <;> simp [value]

theorem finite_div_finite (s t : Bool) (m n : Magnitude) :
    finite s m / finite t n =
      if n.rank = 0 then if m.rank = 0 then nan else infinite (s ^^ t)
      else ofRat (s ^^ t) ((finite s m).value / (finite t n).value) :=
  rfl

/-- The sign of an exact quotient, where that is not zero. -/
theorem decide_quotient_neg {m n : Magnitude} (hm : m.rank ≠ 0) (hn : n.rank ≠ 0) :
    decide ((finite s m).value / (finite t n).value < 0) = (s ^^ t) := by
  have pm := value_pos hm
  have pn := value_pos hn
  have h := div_pos pm pn
  cases s <;> cases t <;> simp [value_finite, div_neg, neg_div, h, h.le]

theorem HasSign.div (hx : HasSign s x) (hy : HasSign t y) :
    x / y = nan ∨ HasSign (s ^^ t) (x / y) := by
  rcases hx with rfl | ⟨m, rfl⟩ <;> rcases hy with rfl | ⟨n, rfl⟩
  · exact .inl rfl
  · exact .inr (.inl rfl)
  · exact .inr (.inr ⟨_, rfl⟩)
  · rw [finite_div_finite]
    by_cases hn : n.rank = 0
    · by_cases hm : m.rank = 0 <;> simp [hn, hm]
    · rw [if_neg hn]
      right
      have h := hasSign_ofRat (s ^^ t) ((finite s m).value / (finite t n).value)
      by_cases hm : m.rank = 0
      · rw [if_pos (by simp [value_finite, value_eq, hm, valueAt_zero])] at h
        exact h
      · have pm := value_pos hm
        have pn := value_pos hn
        rw [if_neg (by cases s <;> cases t <;> simp [value_finite, pm.ne', pn.ne']),
          decide_quotient_neg hm hn] at h
        exact h

/-- Only zero by zero and infinity by infinity are no numbers. -/
theorem div_ne_nan {p : ℚ} (hx : Denotes x p) (hp : p ≠ 0) (hy : HasSign t y) : x / y ≠ nan := by
  obtain ⟨s, m, rfl, -⟩ := hx.exists_finite
  have hm := hx.rank_ne_zero hp
  rcases hy with rfl | ⟨n, rfl⟩
  · exact nofun
  · rw [finite_div_finite]
    by_cases hn : n.rank = 0
    · simp [hn, hm]
    · rw [if_neg hn]
      exact (hasSign_ofRat _ _).ne_nan

theorem powerOfTen_hasSign (e : ℤ) : HasSign false (powerOfTen e) := by
  cases e with
  | ofNat n => exact (atLeastOne_pow_ten n).hasSign
  | negSucc n =>
    have power := (atLeastOne_pow_ten (n + 1)).hasSign
    have sign := (hasSign_ofInt 1).div power
    have one : Denotes (ofInt 1) (1 : ℤ) := denotes_ofInt_of_abs_le (by decide)
    rw [decide_eq_false (by decide), Bool.xor_false] at sign
    rw [powerOfTen]
    exact sign.resolve_left (div_ne_nan one (by norm_num) power)

end Binary64

namespace Amount

open Binary64

theorem denotes_hao (a : Amount) : Denotes (ofInt a.hao) (rounded a.hao) := denotes_ofInt a.fits_hao

theorem rounded_hao_ne_zero {a : Amount} (h : a.hao ≠ 0) : rounded a.hao ≠ 0 :=
  mt eq_zero_of_rounded_eq_zero h

theorem haoPer_hasSign (u : Denomination) : HasSign false (haoPer u) := powerOfTen_hasSign _

/-- An amount has its own sign in every denomination, unless it is zero and the unit is, too. -/
theorem toUnit_cases (a : Amount) (u : Denomination) :
    a.hao = 0 ∧ a.toUnit u = nan ∨ HasSign (a.hao < 0) (a.toUnit u) := by
  have h := (hasSign_ofInt a.hao).div (haoPer_hasSign u)
  rw [Bool.xor_false] at h
  by_cases h0 : a.hao = 0
  · exact h.imp_left fun e => ⟨h0, e⟩
  · have hne := div_ne_nan a.denotes_hao (rounded_hao_ne_zero h0) (haoPer_hasSign u)
    exact .inr (h.resolve_left hne)

theorem toUnit_hasSign {a : Amount} (h : a.hao ≠ 0) (u : Denomination) :
    HasSign (a.hao < 0) (a.toUnit u) :=
  (a.toUnit_cases u).resolve_left fun e => h e.1

theorem exists_toUnit_eq_finite {a : Amount} {u : Denomination}
    (h : (a.toUnit u).isFinite = true) : ∃ m, a.toUnit u = finite (a.hao < 0) m := by
  rcases a.toUnit_cases u with ⟨-, e⟩ | e | e
  · rw [e] at h
    cases h
  · rw [e] at h
    cases h
  · exact e

end Amount

end Coinage
