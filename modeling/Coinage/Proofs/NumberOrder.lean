import Coinage.Proofs.Negation

/-!
# Order of binary64 numbers

The order of numbers is that of their places, and the place of a rounded number follows from the
rational number that was rounded (`place`). So rounding keeps order, also where one result or both
are infinite, and so does a division by a number that is not negative, as long as neither quotient
is `nan`. A greater divisor makes the quotient of a positive number smaller.

Results.

* `Denotes.le_iff`, `le_cases`: what it means that a number is at most another.
* `ofRat_le_ofRat`: rounding, infinities included.
* `div_le_div_of_denotes`: quotients by one divisor.
* `div_le_div_of_divisor_le`, `div_le_div_of_divisor_le_of_neg`: quotients of one number.
-/
namespace Coinage.Binary64

open Magnitude

variable {x y : Binary64} {p q : ℚ} {s t : Bool}

/-! ## Places -/

/-- The place of the binary64 number nearest to `q`, the binades going on without end. -/
def place (q : ℚ) : ℤ := if q < 0 then -rankNear q else rankNear q

theorem place_of_nonneg (h : 0 ≤ q) : place q = rankNear q := if_neg h.not_gt

@[simp] theorem place_neg (q : ℚ) : place (-q) = -place q := by
  rcases lt_trichotomy q 0 with h | rfl | h
  · rw [place_of_nonneg (by linarith), place, if_pos h, rankNear_neg, neg_neg]
  · have h0 := rankNear_valueAt 0
    rw [valueAt_zero] at h0
    simp [place, h0]
  · rw [place_of_nonneg h.le, place, if_pos (by linarith), rankNear_neg]

theorem place_mono (h : p ≤ q) : place p ≤ place q := by
  unfold place
  split
  · next hp =>
    split
    · next hq =>
      have := rankNear_mono (p := -q) (q := -p) (by linarith) (by linarith)
      rw [rankNear_neg, rankNear_neg] at this
      omega
    · omega
  · next hp =>
    rw [not_lt] at hp
    rw [if_neg (by linarith)]
    have := rankNear_mono hp h
    omega

theorem place_valueAt (r : ℕ) : place (valueAt r) = r := by
  rw [place_of_nonneg (valueAt_nonneg r), rankNear_valueAt]

theorem Denotes.ordinal?_eq (h : Denotes x q) : x.ordinal? = some (place q) := by
  obtain ⟨s, m, rfl, rfl⟩ := h.exists_finite
  cases s <;> simp [ordinal?_finite, place_valueAt]

theorem place_rounded (q : ℚ) : place (rounded q) = place q := by
  induction q using forall_of_nonneg_of_neg with
  | h0 q h0 => rw [rounded_of_nonneg h0, place_valueAt, place_of_nonneg h0]
  | hn q ih => rw [rounded_neg, place_neg, place_neg, ih]

/-- A rounded number has the place of the rational number, cut off at the infinities. -/
theorem ordinal?_ofRat (zeroSign : Bool) (q : ℚ) :
    (ofRat zeroSign q).ordinal? =
      some (max (-(2047 * 2 ^ 52)) (min (place q) (2047 * 2 ^ 52))) := by
  by_cases h : Fits q
  · have range : (rankNear q : ℤ) < 2047 * 2 ^ 52 := by exact_mod_cast h
    rw [(denotes_ofRat zeroSign h).ordinal?_eq, place_rounded]
    unfold place
    split <;> congr 1 <;> omega
  · have range : (2047 * 2 ^ 52 : ℤ) ≤ rankNear q := by exact_mod_cast not_lt.mp h
    have hq : q ≠ 0 := by
      rintro rfl
      exact h fits_zero
    rw [ofRat_of_not_fits zeroSign h, if_neg hq]
    by_cases hneg : q < 0 <;> simp only [place, ordinal?, hneg, decide_true, decide_false,
      Bool.false_eq_true, if_true, if_false] <;> congr 1 <;> omega

/-- Between the infinities, both included. -/
theorem exists_ordinal (h : x ≠ nan) :
    ∃ i, x.ordinal? = some i ∧ -(2047 * 2 ^ 52) ≤ i ∧ i ≤ 2047 * 2 ^ 52 := by
  cases x with
  | nan => exact absurd rfl h
  | infinite s => cases s <;> exact ⟨_, rfl, by decide, by decide⟩
  | finite s m =>
    have hm := m.rank_lt
    refine ⟨_, rfl, ?_⟩
    split <;> omega

/-! ## Order -/

theorem value_le_value (hx : x.isFinite = true) (hy : y.isFinite = true) (h : x ≤ y) :
    x.value ≤ y.value := by
  obtain ⟨s, m, rfl, hm⟩ := (denotes_value hx).exists_finite
  obtain ⟨t, n, rfl, hn⟩ := (denotes_value hy).exists_finite
  obtain ⟨i, j, hi, hj, hij⟩ := le_iff.mp h
  rw [ordinal?_finite, Option.some_inj] at hi hj
  subst hi hj
  rw [hm, hn]
  have m0 := valueAt_nonneg m.rank
  have n0 := valueAt_nonneg n.rank
  cases s <;> cases t <;> simp only [Bool.false_eq_true, if_true, if_false] at hij ⊢
  · exact valueAt_strictMono.monotone (by omega)
  · -- only the two zeros are left
    have hm0 : m.rank = 0 := by omega
    have hn0 : n.rank = 0 := by omega
    rw [hm0, hn0, valueAt_zero, neg_zero]
  · linarith
  · exact neg_le_neg (valueAt_strictMono.monotone (by omega))

theorem Denotes.le (hx : Denotes x p) (hy : Denotes y q) (h : p ≤ q) : x ≤ y :=
  le_iff.mpr ⟨_, _, hx.ordinal?_eq, hy.ordinal?_eq, place_mono h⟩

theorem Denotes.le_iff (hx : Denotes x p) (hy : Denotes y q) : x ≤ y ↔ p ≤ q :=
  ⟨fun h => hx.2 ▸ hy.2 ▸ value_le_value hx.1 hy.1 h, hx.le hy⟩

/-- Only the infinities have the places at the ends. -/
theorem eq_infinite_of_le_natAbs {i : ℤ} (h : x.ordinal? = some i) (hi : 2047 * 2 ^ 52 ≤ i.natAbs) :
    x = infinite (i < 0) := by
  cases x with
  | nan => cases h
  | infinite s =>
    cases h
    cases s <;> simp
  | finite s m =>
    have hm := m.rank_lt
    rw [ordinal?_finite, Option.some_inj] at h
    split at h <;> omega

theorem le_cases (h : x ≤ y) : x = infinite true ∨ y = infinite false ∨
    x.isFinite = true ∧ y.isFinite = true ∧ x.value ≤ y.value := by
  obtain ⟨i, j, hi, hj, hij⟩ := le_iff.mp h
  cases x with
  | nan => cases hi
  | infinite s =>
    cases s with
    | true => exact .inl rfl
    | false =>
      cases hi
      have hij : 2047 * 2 ^ 52 ≤ j := hij
      have e := eq_infinite_of_le_natAbs hj (by omega)
      rw [decide_eq_false (by omega)] at e
      exact .inr (.inl e)
  | finite s m =>
    cases y with
    | nan => cases hj
    | infinite t =>
      cases t with
      | true =>
        cases hj
        have hij : i ≤ -(2047 * 2 ^ 52) := hij
        have e := eq_infinite_of_le_natAbs hi (by omega)
        rw [decide_eq_true (by omega)] at e
        exact .inl e
      | false => exact .inr (.inl rfl)
    | finite t n => exact .inr (.inr ⟨rfl, rfl, value_le_value rfl rfl h⟩)

theorem nonneg_cases (h : zero ≤ x) :
    x = infinite false ∨ x.isFinite = true ∧ 0 ≤ x.value := by
  obtain ⟨hf, hv⟩ := denotes_zero
  rcases le_cases h with e | e | ⟨-, hx, hle⟩
  · simp [e, isFinite] at hf
  · exact .inl e
  · exact .inr ⟨hx, hv ▸ hle⟩

theorem nonpos_cases (h : x ≤ zero) :
    x = infinite true ∨ x.isFinite = true ∧ x.value ≤ 0 := by
  obtain ⟨hf, hv⟩ := denotes_zero
  rcases le_cases h with e | e | ⟨hx, -, hle⟩
  · exact .inl e
  · simp [e, isFinite] at hf
  · exact .inr ⟨hx, hv ▸ hle⟩

/-- What lies between finite numbers is finite. -/
theorem isFinite_of_le_of_le {z : Binary64} (hx : x ≤ y) (hz : y ≤ z) (fx : x.isFinite = true)
    (fz : z.isFinite = true) : y.isFinite = true := by
  rcases le_cases hx with e | e | ⟨-, fy, -⟩
  · rw [e] at fx
    cases fx
  · rcases le_cases hz with e' | e' | ⟨fy, -⟩
    · rw [e] at e'
      cases e'
    · rw [e'] at fz
      cases fz
    · exact fy
  · exact fy

theorem infinite_le (h : x ≠ nan) : infinite true ≤ x := by
  obtain ⟨i, hi, lo, -⟩ := exists_ordinal h
  exact le_iff.mpr ⟨_, i, rfl, hi, lo⟩

theorem le_infinite (h : x ≠ nan) : x ≤ infinite false := by
  obtain ⟨i, hi, -, hhi⟩ := exists_ordinal h
  exact le_iff.mpr ⟨i, _, hi, rfl, hhi⟩

theorem HasSign.zero_le (h : HasSign false x) : zero ≤ x := by
  rcases h with rfl | ⟨m, rfl⟩
  · exact le_infinite (by decide +kernel)
  · exact le_iff.mpr ⟨0, m.rank, ordinal?_zero, rfl, by omega⟩

theorem le_refl_of_ne_nan (h : x ≠ nan) : x ≤ x := by
  obtain ⟨i, hi, -⟩ := exists_ordinal h
  exact le_iff.mpr ⟨i, i, hi, hi, le_rfl⟩

protected theorem le_trans {z : Binary64} (h : x ≤ y) (h' : y ≤ z) : x ≤ z := by
  obtain ⟨i, j, hi, hj, hij⟩ := le_iff.mp h
  obtain ⟨j', k, hj', hk, hjk⟩ := le_iff.mp h'
  rw [hj, Option.some_inj] at hj'
  exact le_iff.mpr ⟨i, k, hi, hk, by omega⟩

protected theorem neg_neg (x : Binary64) : -(-x) = x := by
  cases x with
  | nan => rfl
  | infinite s => simp
  | finite s m => simp [neg_finite]

protected theorem neg_le_neg (h : x ≤ y) : -y ≤ -x := by
  have turned (z : Binary64) : (-z).ordinal? = z.ordinal?.map (- ·) := by
    cases z with
    | nan => rfl
    | infinite s => cases s <;> rfl
    | finite s m => cases s <;> simp [neg_finite, ordinal?_finite]
  obtain ⟨i, j, hi, hj, hij⟩ := le_iff.mp h
  exact le_iff.mpr ⟨-j, -i, by simp [turned, hj], by simp [turned, hi], by omega⟩

theorem ofRat_le_ofRat (zeroSign zeroSign' : Bool) (h : p ≤ q) :
    ofRat zeroSign p ≤ ofRat zeroSign' q := by
  have := place_mono h
  exact le_iff.mpr ⟨_, _, ordinal?_ofRat _ _, ordinal?_ofRat _ _, by omega⟩

/-! ## Quotients -/

section Quotients

variable {d d' : Binary64} {n : Magnitude}

theorem denotes_zero_iff {m : Magnitude} : Denotes (finite s m) 0 ↔ m.rank = 0 := by
  constructor
  · intro hx
    have hv := hx.2
    rw [value_finite, value_eq] at hv
    apply valueAt_strictMono.injective
    rw [valueAt_zero]
    cases s <;> simpa using hv
  · intro h
    exact ⟨rfl, by simp [value_finite, value_eq, h, valueAt_zero]⟩

theorem Denotes.hasSign (hx : Denotes x p) (hp : p ≠ 0) : HasSign (p < 0) x := by
  obtain ⟨s, m, rfl, -⟩ := hx.exists_finite
  have hm := value_pos (hx.rank_ne_zero hp)
  have hv := hx.2
  rw [value_finite] at hv
  cases s <;> simp [← hv, hm, hm.le]

/-- A quotient by an infinity is a zero. -/
theorem Denotes.div_infinite (hx : Denotes x p) (s : Bool) : Denotes (x / infinite s) 0 := by
  obtain ⟨t, m, rfl, -⟩ := hx.exists_finite
  exact denotes_zero_iff (s := t ^^ s) (m := .zero).mpr rfl

/-- A quotient by a zero without a sign is infinite, but for that of another zero. -/
theorem Denotes.div_zero (hx : Denotes x p) (hn : n.rank = 0) :
    x / finite false n = if p = 0 then nan else infinite (p < 0) := by
  obtain ⟨s, m, rfl, -⟩ := hx.exists_finite
  rw [finite_div_finite, if_pos hn]
  split
  · next hm =>
    have hp : p = 0 := by_contra fun hp => hx.rank_ne_zero hp hm
    rw [if_pos hp]
  · next hm =>
    have hp : p ≠ 0 := fun hp => hm (denotes_zero_iff.mp (hp ▸ hx))
    have sign := hx.hasSign hp
    rw [hasSign_finite] at sign
    rw [if_neg hp, sign, Bool.xor_false]

theorem Denotes.exists_div_finite_eq (hx : Denotes x p) (hn : n.rank ≠ 0) :
    ∃ z, x / finite false n = ofRat z (p / n.value) :=
  hx.exists_div_eq (denotes_finite n) (value_pos hn).ne'

theorem Denotes.zero_div_finite (hx : Denotes x 0) (hn : n.rank ≠ 0) :
    Denotes (x / finite false n) 0 := by
  obtain ⟨z, e⟩ := hx.exists_div_finite_eq hn
  have h := denotes_ofRat z fits_zero
  rw [rounded_zero] at h
  rwa [e, zero_div]

/-- Quotients by one divisor are ordered like the dividends. -/
theorem div_le_div_of_denotes (hx : Denotes x p) (hy : Denotes y q) (h : p ≤ q)
    (hd : HasSign false d) (hxd : x / d ≠ nan) (hyd : y / d ≠ nan) : x / d ≤ y / d := by
  rcases hd with rfl | ⟨n, rfl⟩
  · exact (hx.div_infinite false).le (hy.div_infinite false) le_rfl
  by_cases hn : n.rank = 0
  · rw [hx.div_zero hn] at hxd ⊢
    rw [hy.div_zero hn] at hyd ⊢
    have hp : p ≠ 0 := fun hp => hxd (if_pos hp)
    have hq : q ≠ 0 := fun hq => hyd (if_pos hq)
    rw [if_neg hp, if_neg hq]
    rcases lt_or_ge p 0 with hneg | hpos
    · rw [decide_eq_true hneg]
      exact infinite_le nofun
    · rw [decide_eq_false (hpos.trans h).not_gt]
      exact le_infinite nofun
  · obtain ⟨z, ex⟩ := hx.exists_div_finite_eq hn
    obtain ⟨z', ey⟩ := hy.exists_div_finite_eq hn
    rw [ex, ey]
    exact ofRat_le_ofRat z z' (div_le_div_of_nonneg_right h (value_pos hn).le)

/-- The quotient of a positive number falls where the divisor grows. -/
theorem div_le_div_of_divisor_le (hx : Denotes x p) (hp : 0 < p) (hd : HasSign false d)
    (hd' : HasSign false d') (h : d ≤ d') : x / d' ≤ x / d := by
  have sign := hx.hasSign hp.ne'
  rw [decide_eq_false hp.not_gt] at sign
  have quotient : HasSign false (x / d) :=
    (sign.div hd).resolve_left (div_ne_nan hx hp.ne' hd)
  rcases hd' with rfl | ⟨n', rfl⟩
  · exact Binary64.le_trans ((hx.div_infinite false).le denotes_zero le_rfl) quotient.zero_le
  rcases hd with rfl | ⟨n, rfl⟩
  · rcases le_cases h with e | e | ⟨hf, -⟩
    · cases e
    · cases e
    · cases hf
  have hle := ((denotes_finite n).le_iff (denotes_finite n')).mp h
  by_cases hn : n.rank = 0
  · rw [hx.div_zero hn, if_neg hp.ne', decide_eq_false hp.not_gt]
    exact le_infinite (div_ne_nan hx hp.ne' (hasSign_finite.mpr rfl))
  · have hpos := value_pos hn
    have hn' : n'.rank ≠ 0 := by
      intro h0
      rw [value_eq n', h0, valueAt_zero] at hle
      exact hle.not_gt hpos
    obtain ⟨z, e⟩ := hx.exists_div_finite_eq hn
    obtain ⟨z', e'⟩ := hx.exists_div_finite_eq hn'
    rw [e, e']
    exact ofRat_le_ofRat z' z (div_le_div_of_nonneg_left hp.le hpos hle)

theorem div_le_div_of_divisor_le_of_neg (hx : Denotes x p) (hp : p < 0) (hd : HasSign false d)
    (hd' : HasSign false d') (h : d ≤ d') : x / d ≤ x / d' := by
  have turned := div_le_div_of_divisor_le hx.neg (neg_pos.mpr hp) hd hd' h
  rw [Binary64.neg_div, Binary64.neg_div] at turned
  rw [← Binary64.neg_neg (x / d), ← Binary64.neg_neg (x / d')]
  exact Binary64.neg_le_neg turned

end Quotients

end Coinage.Binary64
