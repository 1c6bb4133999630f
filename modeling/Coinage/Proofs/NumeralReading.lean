import Coinage.Decimal.Reading
import Coinage.Proofs.Expansion

/-!
# Reading plain numerals

A plain numeral is read as the decimal that it is: all its digits as one number, with as many places
as stand after the point, and the sign as written.

Results.

* `read?_rows`: a row of digits, a point and places, and what the rest is read as.
* `read?_sign`: what a sign in front of a numeral does.
* `read?_text`: a numeral is read as the number nearest to it.
-/
namespace Coinage

namespace Decimal

variable {whole fraction row rest : List Char}

/-- A point and the places after it, where there are any. -/
def places (fraction : List Char) : List Char := if fraction = [] then [] else '.' :: fraction

/-- What follows a row of digits if it goes on no further. -/
def EndsRow (rest : List Char) : Prop := ∀ c ∈ rest.head?, c.isDigit = false

theorem takeWhile_row (h : IsRow row) (hr : EndsRow rest) :
    (row ++ rest).takeWhile Char.isDigit = row := by
  rw [List.takeWhile_append_of_pos h]
  cases rest with
  | nil => simp
  | cons c rest => simp [hr c rfl]

theorem dropWhile_row (h : IsRow row) (hr : EndsRow rest) :
    (row ++ rest).dropWhile Char.isDigit = rest := by
  rw [List.dropWhile_append_of_pos h]
  cases rest with
  | nil => rfl
  | cons c rest => simp [hr c rfl]

theorem endsRow_nil : EndsRow [] := nofun

theorem endsRow_places : EndsRow (places fraction) := by
  unfold places
  split
  · exact endsRow_nil
  · rintro c ⟨⟩
    rfl

theorem fraction?_places (h : IsRow fraction) :
    fraction? (places fraction) = some (fraction, []) := by
  unfold places
  split
  · next h0 => rw [h0]; rfl
  · next h0 =>
    have ht := takeWhile_row h endsRow_nil
    have hd := dropWhile_row h endsRow_nil
    rw [List.append_nil] at ht hd
    simp [fraction?, ht, hd, h0]

/-- Rows of digits around a point are read as one number with the places after the point. -/
theorem read?_rows (hw : IsRow whole) (hne : whole ≠ []) (hf : IsRow fraction) :
    read? (whole ++ places fraction) =
      some ⟨rowValue (whole ++ fraction), -(fraction.length : ℤ)⟩ := by
  unfold read?
  rw [takeWhile_row hw endsRow_places, dropWhile_row hw endsRow_places, fraction?_places hf]
  simp [hne, power?, rowValue]

namespace Numeral

/-- The number that is written, without the sign, as a decimal. -/
def decimal (n : Numeral) : Decimal :=
  ⟨rowValue (n.whole ++ n.fraction), -(n.fraction.length : ℤ)⟩

theorem value_decimal (n : Numeral) : n.decimal.value = n.size := by
  rw [value_eq, decimal, size, zpow_neg, zpow_natCast, div_eq_mul_inv]

theorem text_eq (n : Numeral) : n.text = sign n.negative ++ (n.whole ++ places n.fraction) :=
  List.append_assoc ..

theorem read?_body (n : Numeral) : read? (n.whole ++ places n.fraction) = some n.decimal :=
  read?_rows n.whole_isRow n.whole_ne_nil n.fraction_isRow

end Numeral

/-- What is read without a sign has none. -/
theorem ne_minus_of_read? {text : List Char} {x : Decimal} (h : read? text = some x) :
    text.head? ≠ some '-' := by
  intro e
  cases text with
  | nil => cases e
  | cons c rest =>
    cases e
    simp [read?] at h

end Decimal

namespace Binary64

theorem read?_sign {text : List Char} {x : Decimal} (negative : Bool)
    (h : Decimal.read? text = some x) :
    read? (Decimal.sign negative ++ text) = some (ofDecimal negative x) := by
  cases negative with
  | true => exact congrArg (Option.map _) h
  | false =>
    rw [Decimal.sign, List.nil_append, read?, h]
    · rfl
    · rintro rest rfl
      exact Decimal.ne_minus_of_read? h rfl

/-- A numeral is read as the number nearest to it, with the sign that it has. -/
theorem read?_text (n : Decimal.Numeral) :
    read? n.text = some (ofDecimal n.negative n.decimal) := by
  rw [n.text_eq]
  exact read?_sign n.negative n.read?_body

end Binary64

end Coinage
