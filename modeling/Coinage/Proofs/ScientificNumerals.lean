import Coinage.Proofs.PlainNumerals

/-!
# Reading both layouts exactly

A numeral denotes one rational number: its digits, its places and its power of ten are read, and
nothing is rounded. `rational?` is that number. Both layouts of a decimal denote the value of the
decimal. The scientific one is even read as the same decimal, digit for digit; in the plain one the
power of ten is multiplied out.

Results.

* `read?_scientific`: the scientific layout is read as the decimal that it was written for.
* `denotes_plain`, `denotes_plain_zero`: the plain layout, also with a place of zero behind it.
* `rational?_sign`: the number with a sign in front.
-/
namespace Coinage

namespace Decimal

variable {text whole fraction rest : List Char} {q : ℚ}

/-- The rational number that a numeral with or without a sign denotes. -/
def rational? : List Char → Option ℚ
  | '-' :: text => (read? text).map fun x => -x.value
  | text => (read? text).map value

/-- The numeral without a sign denotes `q`. -/
def Denotes (text : List Char) (q : ℚ) : Prop := ∃ x, read? text = some x ∧ x.value = q

/-! ## The scientific layout -/

theorem natural?_toDigits (n : ℕ) : natural? (Nat.toDigits 10 n) = some n := by
  have row : (Nat.toDigits 10 n).all Char.isDigit = true := List.all_eq_true.mpr (isRow_toDigits n)
  rw [natural?, if_pos ⟨Nat.toDigits_ne_nil, row⟩]
  exact congrArg some (rowValue_toDigits n)

theorem power?_integer (n : ℤ) : power? ('e' :: integer n) = some n := by
  unfold integer
  split
  · rw [power?, natural?_toDigits]
    exact congrArg some (show -(n.natAbs : ℤ) = n by omega)
  · rw [power?, natural?_toDigits]
    · exact congrArg some (show (n.natAbs : ℤ) = n by omega)
    · -- no row of digits starts with a minus sign
      intro digits h
      exact absurd (isRow_toDigits n.natAbs '-' (by simp [h])) (by decide)

/-- The scientific layout has the first of the digits, the others as places, and a power of ten. -/
theorem exists_scientific_eq (x : Decimal) :
    ∃ first rest, IsRow ([first] ++ rest) ∧ rowValue ([first] ++ rest) = x.digits ∧
      x.scientific = [first] ++ (places rest ++ 'e' :: integer (x.exponent + rest.length)) := by
  obtain ⟨first, rest, h⟩ :=
    List.exists_cons_of_ne_nil (Nat.toDigits_ne_nil (n := x.digits) (b := 10))
  refine ⟨first, rest, ?_, ?_, by simp [scientific, h, places]⟩
  · rw [List.singleton_append, ← h]
    exact isRow_toDigits x.digits
  · rw [List.singleton_append, ← h]
    exact rowValue_toDigits x.digits

theorem mem_scientific (x : Decimal) : 'e' ∈ x.scientific := by
  obtain ⟨first, rest, -, -, e⟩ := x.exists_scientific_eq
  simp [e]

theorem endsRow_places_power : EndsRow (places fraction ++ 'e' :: rest) := by
  unfold places
  split <;> rintro c ⟨⟩ <;> rfl

theorem fraction?_places_power (h : IsRow fraction) :
    fraction? (places fraction ++ 'e' :: rest) = some (fraction, 'e' :: rest) := by
  have ends : EndsRow ('e' :: rest) := by
    rintro c ⟨⟩
    rfl
  unfold places
  split
  · next h0 => rw [h0]; rfl
  · next h0 => simp [fraction?, takeWhile_row h ends, dropWhile_row h ends, h0]

/-- The scientific layout is read as the decimal that it was written for. -/
theorem read?_scientific (x : Decimal) : read? x.scientific = some x := by
  obtain ⟨first, rest, row, digits, e⟩ := x.exists_scientific_eq
  rw [rowValue] at digits
  rw [e, read?, takeWhile_row row.of_append.1 endsRow_places_power,
    dropWhile_row row.of_append.1 endsRow_places_power, fraction?_places_power row.of_append.2]
  simp only [Option.bind_eq_bind, Option.bind_some, power?_integer, digits]
  rw [if_neg (by simp), add_sub_cancel_right]
  rfl

theorem denotes_scientific (x : Decimal) : Denotes x.scientific x.value :=
  ⟨x, read?_scientific x, rfl⟩

/-! ## The plain layout -/

theorem IsPlain.denotes (h : IsPlain false whole fraction text) :
    Denotes text (rowValue (whole ++ fraction) / 10 ^ fraction.length) := by
  refine ⟨_, h.text_eq ▸ read?_rows h.whole_isRow h.whole_ne_nil h.fraction_isRow, ?_⟩
  rw [value_eq, zpow_neg, zpow_natCast, div_eq_mul_inv]

/-- The value of a decimal, from the digits and the count of places of its plain layout. -/
theorem value_eq_of_places {x : Decimal} (hl : (fraction.length : ℤ) = max 0 (-x.exponent))
    (hv : rowValue (whole ++ fraction) = x.numerator) :
    (rowValue (whole ++ fraction) / 10 ^ fraction.length : ℚ) = x.value := by
  have e : fraction.length = (-x.exponent).toNat := by omega
  rw [hv, e, value, denominator, Rat.mkRat_eq_div]
  push_cast
  rfl

theorem not_mem_plain (x : Decimal) : 'e' ∉ x.plain := by
  obtain ⟨whole, fraction, plain, -⟩ := plain_isPlain false x
  exact fun h => absurd (plain.digit_or_mark h) (by decide)

theorem denotes_plain (x : Decimal) : Denotes x.plain x.value := by
  obtain ⟨whole, fraction, plain, length, digits⟩ := plain_isPlain false x
  exact value_eq_of_places length digits ▸ plain.denotes

theorem denotes_plain_zero {x : Decimal} (h : 0 ≤ x.exponent) :
    Denotes (x.plain ++ ['.', '0']) x.value := by
  obtain ⟨whole, fraction, plain, length, digits⟩ := plain_isPlain false x
  obtain rfl : fraction = [] := List.eq_nil_of_length_eq_zero (by omega)
  have value : (rowValue (whole ++ ['0']) / 10 ^ ['0'].length : ℚ) = x.value := by
    rw [← value_eq_of_places length digits, rowValue_concat, List.append_nil]
    simp
  exact value ▸ plain.append_point_zero.denotes

/-! ## Signs -/

theorem rational?_sign {x : Decimal} (negative : Bool) (h : read? text = some x) :
    rational? (sign negative ++ text) = some (if negative then -x.value else x.value) := by
  cases negative with
  | true => exact congrArg (Option.map _) h
  | false =>
    rw [sign, List.nil_append, rational?, h]
    · rfl
    · rintro rest rfl
      exact ne_minus_of_read? h rfl

end Decimal

end Coinage
