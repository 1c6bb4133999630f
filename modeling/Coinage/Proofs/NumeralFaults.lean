import Coinage.Proofs.UnitGrammar

/-!
# Faults of numerals

A numeral is read until the first character that cannot be taken: one that is no digit, or one that
carries the number so far out of range. That character alone decides the fault, whatever follows it,
and where there is none the numeral is read to the end. Leading zeros carry nothing out of range, so
the count of digits does not matter.

Results.

* `readDigits_cases`: after the digits that were taken, the rest is read or offends.
* `read_of_clean`, `read_of_firstOffence`: what a numeral is read to.
* `read_ne_empty`: only the empty numeral is reported as empty.
* `parse_first_offence`: what the exponent of a denomination is read to.
-/
namespace Coinage

-- core's powers, whatever else is in scope
attribute [local instance (high)] instPowNat

namespace Integer32

open Decimal

/-! ## Signs -/

/-- The numeral starts with a minus sign. -/
def isNegative (numeral : List Char) : Bool := numeral.head? = some '-'

/-- What follows the sign, or the whole numeral if it has none. -/
def unsigned : List Char → List Char
  | '+' :: digits | '-' :: digits => digits
  | digits => digits

/-- A sign is only taken where something follows it. -/
theorem read_eq {numeral : List Char} (hne : numeral ≠ []) (plus : numeral ≠ ['+'])
    (minus : numeral ≠ ['-']) :
    read numeral = readDigits (isNegative numeral) zero (unsigned numeral) := by
  unfold read unsigned
  split
  · exact absurd rfl hne
  · exact absurd rfl plus
  · exact absurd rfl minus
  · rfl
  · rfl
  · next hp hm =>
    have h : isNegative numeral = false := by
      cases numeral with
      | nil => rfl
      | cons c rest =>
        have hc : c ≠ '-' := fun e => hm rest (by rw [e])
        simp [isNegative, hc]
    rw [h]
    split <;> simp_all

/-! ## Offences -/

/-- The number of these digits, with its sign, has 32 bits. -/
def FitsSigned (negative : Bool) (row : List Char) : Prop :=
  -2 ^ (31 : Nat) ≤ signed negative (rowValue row) ∧
    signed negative (rowValue row) ≤ 2 ^ (31 : Nat) - 1

instance (negative : Bool) (row : List Char) : Decidable (FitsSigned negative row) :=
  inferInstanceAs (Decidable (_ ∧ _))

/-- The character at `i` is no digit, or the number of the digits up to it is out of range. -/
def Offends (negative : Bool) (digits : List Char) (i : Nat) : Prop :=
  ∃ c ∈ digits[i]?, c.isDigit = false ∨ ¬FitsSigned negative (digits.take (i + 1))

instance (negative : Bool) (digits : List Char) (i : Nat) :
    Decidable (Offends negative digits i) :=
  match h : digits[i]? with
  | none => isFalse (by simp [Offends, h])
  | some c =>
    decidable_of_iff (c.isDigit = false ∨ ¬FitsSigned negative (digits.take (i + 1)))
      (by simp [Offends, h])

/-- The character at `i` offends and none before it does. -/
structure FirstOffence (negative : Bool) (digits : List Char) (i : Nat) : Prop where
  offends : Offends negative digits i
  before : ∀ j < i, ¬Offends negative digits j

/-- What is reported of an offending character. A digit can only be one too many. -/
def faultOf (negative : Bool) (c : Char) : IntegerFault :=
  if c.isDigit then if negative then .belowRange else .aboveRange else .invalidDigit

variable {negative : Bool} {digits done rest : List Char} {sofar : Integer32} {c : Char} {i j : Nat}

theorem Offends.lt_length (h : Offends negative digits i) : i < digits.length := by
  obtain ⟨c, hc, -⟩ := h
  exact (List.getElem?_eq_some_iff.mp hc).1

theorem FirstOffence.unique (hi : FirstOffence negative digits i)
    (hj : FirstOffence negative digits j) : i = j := by
  rcases Nat.lt_trichotomy i j with h | h | h
  · exact absurd hi.offends (hj.before i h)
  · exact h
  · exact absurd hj.offends (hi.before j h)

theorem ofInt?_eq_none_iff {row : List Char} :
    ofInt? (signed negative (rowValue row)) = none ↔ ¬FitsSigned negative row := by
  unfold ofInt?
  split
  · next h => exact iff_of_false (Option.some_ne_none _) (not_not.mpr h)
  · next h => exact iff_of_true rfl h

/-- Behind the digits that were taken. -/
theorem offends_length_iff : Offends negative (done ++ c :: rest) done.length ↔
    c.isDigit = false ∨ ofInt? (signed negative (rowValue (done ++ [c]))) = none := by
  have taken : (done ++ c :: rest).take (done.length + 1) = done ++ [c] := by
    rw [List.take_length_add_append]
    rfl
  rw [Offends, taken, ← ofInt?_eq_none_iff]
  simp

/-! ## Reading digits -/

/-- An offending character is the fault, whatever follows. -/
theorem readDigits_of_offends (hs : sofar.value = signed negative (rowValue done))
    (h : Offends negative (done ++ c :: rest) done.length) :
    readDigits negative sofar (c :: rest) = .error (faultOf negative c) := by
  rw [offends_length_iff, rowValue_concat, ← signed_step, ← hs] at h
  rw [readDigits, digit?, faultOf]
  cases hc : c.isDigit with
  | false => rfl
  | true =>
    have range := h.resolve_left (by simp [hc])
    simp [range]

/-- Any other character is a digit that is taken. -/
theorem readDigits_of_not_offends (hs : sofar.value = signed negative (rowValue done))
    (h : ¬Offends negative (done ++ c :: rest) done.length) :
    ∃ next : Integer32, next.value = signed negative (rowValue (done ++ [c])) ∧
      readDigits negative sofar (c :: rest) = readDigits negative next rest := by
  rw [offends_length_iff, not_or, Bool.not_eq_false, ← ne_eq, Option.ne_none_iff_exists'] at h
  obtain ⟨hc, next, hn⟩ := h
  refine ⟨next, ofInt?_eq_some_iff.mp hn, ?_⟩
  rw [rowValue_concat, ← signed_step, ← hs] at hn
  rw [readDigits, digit?, if_pos hc]
  simp [hn]

/-- After digits that were taken, the first offence of all the digits decides, or all of them are
read. The induction is on those that are left, and moves one at a time to those that were taken. -/
theorem readDigits_cases (negative : Bool) (done rest : List Char) (sofar : Integer32)
    (hs : sofar.value = signed negative (rowValue done))
    (taken : ∀ j < done.length, ¬Offends negative (done ++ rest) j) :
    (∃ i c, FirstOffence negative (done ++ rest) i ∧ (done ++ rest)[i]? = some c ∧
      readDigits negative sofar rest = .error (faultOf negative c)) ∨
    (∀ i, ¬Offends negative (done ++ rest) i) ∧
      ∃ m, readDigits negative sofar rest = .ok m ∧
        m.value = signed negative (rowValue (done ++ rest)) := by
  induction rest generalizing done sofar with
  | nil =>
    rw [List.append_nil] at taken ⊢
    exact .inr ⟨fun i hi => taken i hi.lt_length hi, sofar, rfl, hs⟩
  | cons c rest ih =>
    by_cases h : Offends negative (done ++ c :: rest) done.length
    · exact .inl ⟨done.length, c, ⟨h, taken⟩, by simp, readDigits_of_offends hs h⟩
    · obtain ⟨next, hn, e⟩ := readDigits_of_not_offends hs h
      have more := ih (done ++ [c]) next hn
      rw [List.append_assoc, List.singleton_append] at more
      rw [e]
      refine more fun j hj => ?_
      rcases Nat.lt_or_eq_of_le (Nat.le_of_lt_succ (by simpa using hj)) with hj | rfl
      · exact taken j hj
      · exact h

/-! ## Reading numerals -/

section Read

variable {numeral : List Char}

theorem read_cases (hne : numeral ≠ []) (plus : numeral ≠ ['+']) (minus : numeral ≠ ['-']) :
    (∃ i c, FirstOffence (isNegative numeral) (unsigned numeral) i ∧
      (unsigned numeral)[i]? = some c ∧
      read numeral = .error (faultOf (isNegative numeral) c)) ∨
    (∀ i, ¬Offends (isNegative numeral) (unsigned numeral) i) ∧
      ∃ m, read numeral = .ok m ∧
        m.value = signed (isNegative numeral) (rowValue (unsigned numeral)) := by
  rw [read_eq hne plus minus]
  exact readDigits_cases _ [] _ zero (value_zero _) nofun

/-- A numeral without an offence is read to the end. -/
theorem read_of_clean (hne : numeral ≠ []) (plus : numeral ≠ ['+']) (minus : numeral ≠ ['-'])
    (clean : ∀ i, ¬Offends (isNegative numeral) (unsigned numeral) i) :
    ∃ m, read numeral = .ok m ∧
      m.value = signed (isNegative numeral) (rowValue (unsigned numeral)) := by
  rcases read_cases hne plus minus with ⟨i, -, h, -⟩ | ⟨-, h⟩
  · exact absurd h.offends (clean i)
  · exact h

/-- The first offence is the fault. -/
theorem read_of_firstOffence (hne : numeral ≠ []) (plus : numeral ≠ ['+'])
    (minus : numeral ≠ ['-']) (h : FirstOffence (isNegative numeral) (unsigned numeral) i)
    (hc : (unsigned numeral)[i]? = some c) :
    read numeral = .error (faultOf (isNegative numeral) c) := by
  rcases read_cases hne plus minus with ⟨j, d, hj, hd, e⟩ | ⟨clean, -⟩
  · obtain rfl := h.unique hj
    obtain rfl := Option.some.inj (hc.symm.trans hd)
    exact e
  · exact absurd h.offends (clean i)

theorem faultOf_ne_empty : faultOf negative c ≠ .empty := by
  unfold faultOf
  split
  · split <;> exact nofun
  · exact nofun

/-- Only the empty numeral is reported as empty. -/
theorem read_ne_empty (hne : numeral ≠ []) : read numeral ≠ .error .empty := by
  by_cases plus : numeral = ['+']
  · subst plus
    exact nofun
  by_cases minus : numeral = ['-']
  · subst minus
    exact nofun
  rcases read_cases hne plus minus with ⟨i, c, -, -, e⟩ | ⟨-, m, e, -⟩
  · rw [e]
    exact fun h => faultOf_ne_empty (Except.error.inj h)
  · rw [e]
    exact nofun

end Read

end Integer32

namespace Denomination

open Decimal Integer32 Text

/-! ## Exponents of denominations -/

/-- Something stands in the place of the numeral, so it is never reported as empty. -/
theorem parse_ne_empty (input : String) :
    (parse input).result ≠ .error (.malformedInteger .empty) := by
  intro h
  rcases result_parse_cases input with ⟨u, e, -⟩ | ⟨-, power⟩ | ⟨e, -⟩
  · rw [e] at h
    cases h
  · obtain ⟨numeral, hp⟩ := isPower_iff.mp power
    obtain ⟨-, -, -, hne⟩ := exponentPart?_eq_some_iff.mp hp
    rw [parse_of_power hp] at h
    cases e : read numeral with
    | ok m =>
      rw [e] at h
      cases h
    | error cause =>
      rw [e] at h
      cases h
      exact read_ne_empty hne e
  · rw [e] at h
    cases h

/-- In the form of a power of ten a sign alone is an invalid digit. Any other numeral is read to the
number of its digits with its sign, unless a character of it is no digit or carries the number out
of range. The first such character is the fault: an invalid digit if it is none, and else the end of
the range on the side of the sign. No text is reported as an empty numeral. -/
theorem parse_first_offence (input : String) :
    (∀ middle numeral : List Char,
      trim input.toList = "1e".toList ++ middle ++ "OMC".toList → trimEnd middle = numeral →
      numeral ≠ [] →
      (numeral = ['+'] ∨ numeral = ['-'] →
        parse input = .silent (.error (.malformedInteger .invalidDigit))) ∧
      (numeral ≠ ['+'] → numeral ≠ ['-'] →
        ((∀ i, ¬Offends (isNegative numeral) (unsigned numeral) i) →
          ∃ u : Denomination, parse input = .silent (.ok u) ∧
            u.exponent.value = signed (isNegative numeral) (rowValue (unsigned numeral))) ∧
        (∀ i c, FirstOffence (isNegative numeral) (unsigned numeral) i →
          (unsigned numeral)[i]? = some c →
          parse input =
            .silent (.error (.malformedInteger (faultOf (isNegative numeral) c)))))) ∧
    (parse input).result ≠ .error (.malformedInteger .empty) := by
  refine ⟨?_, parse_ne_empty input⟩
  intro middle numeral text hm hne
  have power := parse_of_power (exponentPart?_eq_some_iff.mpr ⟨middle, text, hm, hne⟩)
  refine ⟨?_, fun plus minus => ⟨fun clean => ?_, fun i c first hc => ?_⟩⟩
  · rintro (rfl | rfl) <;> exact power
  · obtain ⟨m, e, hv⟩ := read_of_clean hne plus minus clean
    rw [e] at power
    exact ⟨⟨m⟩, power, hv⟩
  · rw [read_of_firstOffence hne plus minus first hc] at power
    exact power

/-- A digit too many in front of what is no digit, the least exponent with leading zeros, and a sign
alone. -/
theorem parse_first_offence_kinds :
    (FirstOffence true "2147483649x".toList 9 ∧
      parse "1e-2147483649x OMC" = .silent (.error (.malformedInteger .belowRange))) ∧
    ((∀ i, ¬Offends true "0002147483648".toList i) ∧
      ∃ u : Denomination, parse "1e-0002147483648OMC" = .silent (.ok u) ∧
        u.exponent.value = -2147483648) ∧
    parse " 1e+ OMC" = .silent (.error (.malformedInteger .invalidDigit)) := by
  have first : FirstOffence true "2147483649x".toList 9 :=
    ⟨by decide +kernel, by decide +kernel⟩
  have clean : ∀ i, ¬Offends true "0002147483648".toList i := by
    intro i hi
    have within : ∀ j < 13, ¬Offends true "0002147483648".toList j := by decide +kernel
    exact within i hi.lt_length hi
  refine ⟨⟨first, ?_⟩, ⟨clean, ?_⟩, ?_⟩
  · exact ((((parse_first_offence "1e-2147483649x OMC").1 "-2147483649x ".toList
      "-2147483649x".toList (by decide +kernel) (by decide +kernel) (by decide)).2 (by decide)
      (by decide)).2 9 '9' first rfl)
  · exact ((((parse_first_offence "1e-0002147483648OMC").1 "-0002147483648".toList
      "-0002147483648".toList (by decide +kernel) (by decide +kernel) (by decide)).2 (by decide)
      (by decide)).1 clean)
  · exact ((parse_first_offence " 1e+ OMC").1 "+ ".toList "+".toList (by decide +kernel)
      (by decide +kernel) (by decide)).1 (.inl rfl)

end Denomination

end Coinage
