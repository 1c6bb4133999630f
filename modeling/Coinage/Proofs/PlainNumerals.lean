import Coinage.Proofs.NumeralReading

/-!
# The shape of plain numerals

The plain layout of any decimal has one shape: a minus sign or none, a whole part without
superfluous zeros, and, where there are places, a point and as many digits. Unlike in an expansion,
zeros may stand at the end of the places.

Results.

* `IsPlain.digit_or_mark`: the characters of a plain numeral.
* `IsPlain.head?_eq_minus_iff`: only the sign starts with a minus.
* `IsPlain.append_zeros`, `IsPlain.append_point_zero`: zeros may be added to the places.
* `plain_isPlain`: the plain layout has this shape, with the places that the exponent asks for.
-/
namespace Coinage.Decimal

/-- A sign, a whole part without superfluous zeros, and a point with the places after it, where
there are any: `-?(0|[1-9][0-9]*)(\.[0-9]+)?`. -/
structure IsPlain (negative : Bool) (whole fraction text : List Char) : Prop where
  whole_isRow : IsRow whole
  whole_ne_nil : whole ≠ []
  whole_reduced : whole = ['0'] ∨ whole.head? ≠ some '0'
  fraction_isRow : IsRow fraction
  text_eq : text = sign negative ++ (whole ++ places fraction)

variable {negative : Bool} {whole fraction text : List Char}

theorem Numeral.isPlain (n : Numeral) : IsPlain n.negative n.whole n.fraction n.text :=
  ⟨n.whole_isRow, n.whole_ne_nil, n.whole_reduced, n.fraction_isRow, n.text_eq⟩

namespace IsPlain

/-- There are digits in a plain numeral, a point and a sign, and nothing else. -/
theorem digit_or_mark (h : IsPlain negative whole fraction text) {c : Char} (hc : c ∈ text) :
    c.isDigit = true ∨ c = '.' ∨ c = '-' := by
  have sign : c ∈ sign negative → c = '-' := by cases negative <;> simp [sign]
  have places : c ∈ places fraction → c.isDigit = true ∨ c = '.' := by
    unfold places
    split
    · simp
    · exact fun hc => (List.mem_cons.mp hc).symm.imp_left (h.fraction_isRow c)
  simp only [h.text_eq, List.mem_append] at hc
  rcases hc with hc | hc | hc
  · exact .inr (.inr (sign hc))
  · exact .inl (h.whole_isRow c hc)
  · exact (places hc).imp_right .inl

theorem ne_blank (h : IsPlain negative whole fraction text) : ∀ c ∈ text, c ≠ ' ' := by
  rintro c hc rfl
  exact absurd (h.digit_or_mark hc) (by decide)

theorem head?_eq_minus_iff (h : IsPlain negative whole fraction text) :
    text.head? = some '-' ↔ negative = true := by
  rw [h.text_eq]
  cases negative with
  | true => simp [sign]
  | false =>
    have hw := h.whole_isRow
    cases whole with
    | nil => exact absurd rfl h.whole_ne_nil
    | cons c rest =>
      have hc : c ≠ '-' := by
        intro e
        exact absurd (hw c List.mem_cons_self) (by simp [e])
      simp [sign, hc]

theorem append_zeros (h : IsPlain negative whole fraction text) (hne : fraction ≠ []) (k : ℕ) :
    IsPlain negative whole (fraction ++ List.replicate k '0') (text ++ List.replicate k '0') where
  whole_isRow := h.whole_isRow
  whole_ne_nil := h.whole_ne_nil
  whole_reduced := h.whole_reduced
  fraction_isRow := h.fraction_isRow.append (isRow_replicate_zero k)
  text_eq := by simp [h.text_eq, places, hne]

/-- A place of zero behind a whole number. -/
theorem append_point_zero (h : IsPlain negative whole [] text) :
    IsPlain negative whole ['0'] (text ++ ['.', '0']) where
  whole_isRow := h.whole_isRow
  whole_ne_nil := h.whole_ne_nil
  whole_reduced := h.whole_reduced
  fraction_isRow := isRow_replicate_zero 1
  text_eq := by simp [h.text_eq, places]

end IsPlain

/-- A numeral without superfluous zeros has no blank in it. -/
theorem Numeral.ne_blank_of_mem_text (n : Numeral) : ∀ c ∈ n.text, c ≠ ' ' := n.isPlain.ne_blank

/-- The plain layout has as many places as its exponent asks for, and the digits of the decimal. -/
theorem plain_isPlain (negative : Bool) (x : Decimal) :
    ∃ whole fraction, IsPlain negative whole fraction (sign negative ++ x.plain) ∧
      (fraction.length : ℤ) = max 0 (-x.exponent) ∧
      rowValue (whole ++ fraction) = x.numerator := by
  obtain ⟨d, e⟩ := x
  cases e with
  | ofNat k =>
    refine ⟨Nat.toDigits 10 (d * 10 ^ k), [], ⟨isRow_toDigits _, Nat.toDigits_ne_nil,
      toDigits_reduced _, isRow_replicate_zero 0, ?_⟩, ?_, ?_⟩
    · simp [plain, places]
    · simp
    · simp [numerator, rowValue_toDigits]
  | negSucc k =>
    obtain ⟨hrow, hl, hv, -⟩ :=
      leftpad_toDigits (Nat.mod_lt d (show 0 < 10 ^ (k + 1) by positivity))
    have hne : (Nat.toDigits 10 (d % 10 ^ (k + 1))).leftpad (k + 1) '0' ≠ [] := by
      intro h
      rw [h] at hl
      simp at hl
    refine ⟨Nat.toDigits 10 (d / 10 ^ (k + 1)), _, ⟨isRow_toDigits _, Nat.toDigits_ne_nil,
      toDigits_reduced _, hrow, ?_⟩, ?_, ?_⟩
    · simp only [plain, places, if_neg hne]
    · rw [hl, Int.neg_negSucc]
      omega
    · rw [rowValue_append, hv, hl, rowValue_toDigits, Nat.div_add_mod']
      simp [numerator]

end Coinage.Decimal
