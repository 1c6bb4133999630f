import Coinage.Proofs.LabelRoundTrip
import Coinage.Proofs.ShortestFormat
import Coinage.Proofs.Signs

/-!
# The shape of a formatted amount

A formatted amount is a number, a blank and a label. The number has no blank in it, so the first
blank of the text is the one in front of the label, and the denomination can be read back from what
follows, even though a label may have a blank of its own. The number is one of three words or a
plain numeral, with a minus sign exactly for an amount below zero; how many places it has is decided
by the denomination.

Results.

* `numeral_isPlain`: a finite number, with the places that the denomination decides.
* `numeral_eq_word`: a number that is not finite.
* `format_shape`: the parts of a formatted amount, and how to take them apart.
-/
namespace Coinage.Amount

open Binary64 Decimal Magnitude

variable {a : Amount} {u : Denomination} {s : Bool} {m : Magnitude}

/-! ## Places -/

theorem numeral_isPlain_of_places {k : ℕ} (h : places? u = some k) (s : Bool) (m : Magnitude) :
    ∃ whole fraction text, numeral (finite s m) u = String.ofList text ∧
      IsPlain s whole fraction text ∧ fraction.length = k := by
  obtain ⟨whole, fraction, hp, hl, -⟩ := plain_isPlain s (m.withPlaces (min k maxPlaces))
  have hl' : fraction.length = min k maxPlaces := by
    simp only [withPlaces, neg_neg] at hl
    omega
  by_cases hk : k = 0
  · have hz : k - min k maxPlaces = 0 := by omega
    refine ⟨whole, fraction, _, numeral_of_places h s m, ?_, by omega⟩
    simpa [hz] using hp
  · have hne : fraction ≠ [] := by
      intro e
      simp [e, maxPlaces] at hl'
      omega
    refine ⟨whole, _, _, numeral_of_places h s m, hp.append_zeros hne _, ?_⟩
    simp [hl']

theorem numeral_isPlain_of_none (h : places? u = none) (s : Bool) (m : Magnitude) :
    ∃ whole fraction text, numeral (finite s m) u = String.ofList text ∧
      IsPlain s whole fraction text ∧ fraction.getLast? ≠ some '0' := by
  obtain ⟨n, ht, -, hn⟩ := exists_numeral_plain s m.shortest shortest_reduced
  refine ⟨n.whole, n.fraction, n.text, ?_, hn ▸ n.isPlain, n.fraction_reduced⟩
  rw [numeral_of_none h, text, render_finite, ht]

/-! ## The number -/

/-- The numeral of a finite number, with the places that the denomination decides. -/
theorem numeral_isPlain (u : Denomination) (s : Bool) (m : Magnitude) :
    ∃ whole fraction text, numeral (finite s m) u = String.ofList text ∧
      IsPlain s whole fraction text ∧
      (-8 < u.exponent.value → fraction.getLast? ≠ some '0') ∧
      (u.exponent.value ≤ -8 → (fraction.length : ℤ) = -(u.exponent.value + 8)) := by
  rcases lt_or_ge (-8) u.exponent.value with hu | hu
  · obtain ⟨whole, fraction, text, ht, hp, hz⟩ := numeral_isPlain_of_none (places?_of_lt hu) s m
    exact ⟨whole, fraction, text, ht, hp, fun _ => hz, fun h => absurd h hu.not_ge⟩
  · obtain ⟨whole, fraction, text, ht, hp, hl⟩ := numeral_isPlain_of_places (places?_of_le hu) s m
    exact ⟨whole, fraction, text, ht, hp, fun h => absurd h hu.not_gt, fun _ => by omega⟩

theorem numeral_of_not_isFinite {x : Binary64} (h : x.isFinite = false) (u : Denomination) :
    numeral x u = x.text := by
  unfold numeral
  cases places? u <;> simp [h]

/-- A number that is not finite is one of three words, with a minus sign for an amount below
zero. -/
theorem numeral_eq_word {a : Amount} (h : (a.toUnit u).isFinite = false) :
    ∃ text, numeral (a.toUnit u) u = String.ofList text ∧
      text ∈ ["NaN".toList, "inf".toList, "-inf".toList] ∧
      (text.head? = some '-' ↔ a.hao < 0) := by
  rw [numeral_of_not_isFinite h]
  rcases a.toUnit_cases u with ⟨h0, e⟩ | e | ⟨m, e⟩
  · exact ⟨"NaN".toList, by rw [e]; rfl, by simp, by simp [h0]⟩
  · by_cases hneg : a.hao < 0
    · exact ⟨"-inf".toList, by rw [e, decide_eq_true hneg]; rfl, by simp, by simp [hneg]⟩
    · exact ⟨"inf".toList, by rw [e, decide_eq_false hneg]; rfl, by simp, by simp [hneg]⟩
  · rw [e] at h
    exact absurd h (by simp [isFinite])

theorem ne_blank_of_word {text : List Char}
    (h : text ∈ ["NaN".toList, "inf".toList, "-inf".toList]) : ∀ c ∈ text, c ≠ ' ' := by
  simp only [List.mem_cons, List.not_mem_nil, or_false] at h
  rcases h with rfl | rfl | rfl <;> simp

theorem numeral_eq_plain {a : Amount} (h : (a.toUnit u).isFinite = true) :
    ∃ whole fraction text, numeral (a.toUnit u) u = String.ofList text ∧
      IsPlain (a.hao < 0) whole fraction text ∧
      (-8 < u.exponent.value → fraction.getLast? ≠ some '0') ∧
      (u.exponent.value ≤ -8 → (fraction.length : ℤ) = -(u.exponent.value + 8)) := by
  obtain ⟨m, e⟩ := exists_toUnit_eq_finite h
  rw [e]
  exact numeral_isPlain u _ m

/-! ## Taking a formatted amount apart -/

theorem dropWhile_format {text : List Char} (h : numeral (a.toUnit u) u = String.ofList text)
    (ht : ∀ c ∈ text, c ≠ ' ') :
    (a.format u).toList.dropWhile (· ≠ ' ') = ' ' :: u.label.toList := by
  rw [format, h, String.toList_append, String.toList_append, String.toList_ofList,
    List.append_assoc, List.dropWhile_append_of_pos (by simpa using ht)]
  simp

/-- The denomination is read back from what stands behind the first blank. -/
theorem parse_behind_blank {text : List Char} (h : numeral (a.toUnit u) u = String.ofList text)
    (ht : ∀ c ∈ text, c ≠ ' ') :
    Denomination.parse (String.ofList ((a.format u).toList.dropWhile (· ≠ ' ')).tail) =
      .silent (.ok u) := by
  have hp := Denomination.parse_surrounded_label u "" "" (by decide) (by decide)
  rw [dropWhile_format h ht, List.tail_cons, String.ofList_toList]
  simpa using hp

/-- A formatted amount is a number, a blank and the label. The number has no blank, starts with a
minus sign exactly for an amount below zero, and is one of three words or a plain numeral: above the
Hao its places do not end in a zero, and from the Hao down there are as many as the unit is powers
of ten below the Hao. So it ends at the first blank, and the denomination can be read from the
rest. -/
theorem format_shape (a : Amount) (u : Denomination) :
    ∃ text : List Char, a.format u = String.ofList text ++ " " ++ u.label ∧
      (∀ c ∈ text, c ≠ ' ') ∧
      (text.head? = some '-' ↔ a.hao < 0) ∧
      ((a.toUnit u).isFinite = false → text ∈ ["NaN".toList, "inf".toList, "-inf".toList]) ∧
      ((a.toUnit u).isFinite = true → ∃ whole fraction, IsPlain (a.hao < 0) whole fraction text ∧
        (-8 < u.exponent.value → fraction.getLast? ≠ some '0') ∧
        (u.exponent.value ≤ -8 → (fraction.length : ℤ) = -(u.exponent.value + 8))) ∧
      (a.format u).toList.takeWhile (· ≠ ' ') = text ∧
      Denomination.parse (String.ofList ((a.format u).toList.dropWhile (· ≠ ' ')).tail) =
        .silent (.ok u) := by
  cases hfin : (a.toUnit u).isFinite with
  | false =>
    obtain ⟨text, ht, hw, hs⟩ := numeral_eq_word hfin
    have hb := ne_blank_of_word hw
    exact ⟨text, by rw [format, ht], hb, hs, fun _ => hw, by simp, takeWhile_format ht hb,
      parse_behind_blank ht hb⟩
  | true =>
    obtain ⟨whole, fraction, text, ht, hp, hl⟩ := numeral_eq_plain hfin
    have hb := hp.ne_blank
    have hs : text.head? = some '-' ↔ a.hao < 0 := by simpa using hp.head?_eq_minus_iff
    exact ⟨text, by rw [format, ht], hb, hs, by simp, fun _ => ⟨whole, fraction, hp, hl⟩,
      takeWhile_format ht hb, parse_behind_blank ht hb⟩

end Coinage.Amount
