import Coinage.Integer32
import Coinage.Proofs.DigitRows

/-!
# Numerals of integers of 32 bits

Digits are taken one at a time, and a prefix of a numeral in range denotes a number in range, so
the checks on the way never fail on what is written for an integer.

Results.

* `readDigits_row`: a row of digits whose number is in range is read.
* `read_integer`: every integer is read from its own numeral.
* `read_eq_ok_iff`: what is read is exactly the numerals of the integers in range.
-/
namespace Coinage.Integer32

open Decimal

/-- A natural number on the side of zero that the sign asks for. -/
def signed : Bool → Nat → Int
  | true, n => -n
  | false, n => n

@[simp] theorem signed_true (n : Nat) : signed true n = -n := rfl

@[simp] theorem signed_false (n : Nat) : signed false n = n := rfl

theorem value_zero (negative : Bool) : zero.value = signed negative 0 := by
  cases negative <;> rfl

theorem signed_step (negative : Bool) (n d : Nat) :
    10 * signed negative n + (if negative then -(d : Int) else d) =
      signed negative (10 * n + d) := by
  cases negative
  · rfl
  · simp only [signed_true, if_true]
    omega

/-- What is no further from zero than an integer in range is in range. -/
theorem exists_signed {negative : Bool} {i j : Nat} {m : Integer32} (h : i ≤ j)
    (hm : m.value = signed negative j) : ∃ k : Integer32, k.value = signed negative i := by
  have hlo := m.lower
  have hhi := m.upper
  rw [hm] at hlo hhi
  refine ⟨⟨signed negative i, ?_, ?_⟩, rfl⟩
  all_goals cases negative <;> simp only [signed_true, signed_false] at hlo hhi ⊢ <;> omega

theorem le_ofDigitChars (row : List Char) (n : Nat) : n ≤ Nat.ofDigitChars 10 row n := by
  rw [Nat.ofDigitChars_eq_ofDigitChars_zero]
  exact Nat.le_add_right_of_le (Nat.le_mul_of_pos_left n (Nat.pow_pos (by omega)))

/-- Digits are taken as long as the number that they all make is in range. -/
theorem readDigits_row {negative : Bool} {row : List Char} (h : IsRow row) {n : Nat}
    {sofar m : Integer32} (hs : sofar.value = signed negative n)
    (hm : m.value = signed negative (Nat.ofDigitChars 10 row n)) :
    readDigits negative sofar row = .ok m := by
  induction row generalizing n sofar with
  | nil =>
    have : sofar = m := value_inj.mp (by rw [hs, hm, Nat.ofDigitChars_nil])
    rw [readDigits, this]
  | cons c rest ih =>
    rw [Nat.ofDigitChars_cons] at hm
    obtain ⟨d, hd, e⟩ : ∃ d, digit? c = some d ∧ d = c.toNat - '0'.toNat :=
      ⟨_, if_pos (h c List.mem_cons_self), rfl⟩
    rw [← e] at hm
    -- the number so far is no further from zero than the whole one
    obtain ⟨next, hv⟩ := exists_signed (le_ofDigitChars rest (10 * n + d)) hm
    rw [readDigits, hd]
    simp only [hs, signed_step, ofInt?_eq_some_iff.mpr hv]
    exact ih (fun x hx => h x (List.mem_cons_of_mem c hx)) hv hm

theorem read_row {row : List Char} (h : IsRow row) (hne : row ≠ []) :
    read row = readDigits false zero row := by
  cases row with
  | nil => exact absurd rfl hne
  | cons c rest =>
    have hc := h c List.mem_cons_self
    have hp : c ≠ '+' := by rintro rfl; exact absurd hc (by decide)
    have hm : c ≠ '-' := by rintro rfl; exact absurd hc (by decide)
    unfold read
    split <;> simp_all

theorem read_neg_row {row : List Char} (hne : row ≠ []) :
    read ('-' :: row) = readDigits true zero row := by
  cases row with
  | nil => exact absurd rfl hne
  | cons c rest => rfl

theorem read_plus_row {row : List Char} (hne : row ≠ []) :
    read ('+' :: row) = readDigits false zero row := by
  cases row with
  | nil => exact absurd rfl hne
  | cons c rest => rfl

/-- Every integer is read from its own numeral. -/
theorem read_integer (e : Integer32) : read (integer e.value) = .ok e := by
  have hv : Nat.ofDigitChars 10 (Nat.toDigits 10 e.value.natAbs) 0 = e.value.natAbs :=
    Nat.ofDigitChars_ten_toDigits
  unfold integer
  split
  · rw [read_neg_row Nat.toDigits_ne_nil]
    refine readDigits_row (isRow_toDigits _) (value_zero true) ?_
    rw [hv, signed_true]
    omega
  · rw [read_row (isRow_toDigits _) Nat.toDigits_ne_nil]
    refine readDigits_row (isRow_toDigits _) (value_zero false) ?_
    rw [hv, signed_false]
    omega

/-! ## All numerals -/

/-- One sign at most and one or more digits, and the integer that they denote. -/
inductive IntegerNumeral : List Char → Int → Prop where
  | unsigned {row : List Char} (digits : IsRow row) (ne_nil : row ≠ []) :
      IntegerNumeral row (rowValue row)
  | plus {row : List Char} (digits : IsRow row) (ne_nil : row ≠ []) :
      IntegerNumeral ('+' :: row) (rowValue row)
  | minus {row : List Char} (digits : IsRow row) (ne_nil : row ≠ []) :
      IntegerNumeral ('-' :: row) (-rowValue row)

theorem digit?_eq_some {c : Char} {d : Nat} (h : digit? c = some d) :
    c.isDigit = true ∧ d = c.toNat - '0'.toNat := by
  unfold digit? at h
  split at h
  · exact ⟨‹_›, (Option.some.inj h).symm⟩
  · cases h

/-- Only rows of digits are read, and to the number that they make after the one so far. -/
theorem row_of_readDigits {negative : Bool} {row : List Char} {n : Nat} {sofar m : Integer32}
    (hs : sofar.value = signed negative n) (h : readDigits negative sofar row = .ok m) :
    IsRow row ∧ m.value = signed negative (Nat.ofDigitChars 10 row n) := by
  induction row generalizing n sofar with
  | nil =>
    cases h
    exact ⟨nofun, hs⟩
  | cons c rest ih =>
    rw [readDigits] at h
    split at h
    · cases h
    · next d hd =>
      obtain ⟨hc, rfl⟩ := digit?_eq_some hd
      split at h
      · cases h
      · next next hnext =>
        rw [hs, signed_step, ofInt?_eq_some_iff] at hnext
        obtain ⟨hrest, hv⟩ := ih hnext h
        rw [Nat.ofDigitChars_cons]
        exact ⟨List.forall_mem_cons.mpr ⟨hc, hrest⟩, hv⟩

theorem readDigits_zero_eq_ok_iff {negative : Bool} {row : List Char} {m : Integer32} :
    readDigits negative zero row = .ok m ↔ IsRow row ∧ m.value = signed negative (rowValue row) :=
  ⟨row_of_readDigits (value_zero negative), fun h => readDigits_row h.1 (value_zero negative) h.2⟩

/-- What is read is exactly the numerals of the integers in range. -/
theorem read_eq_ok_iff {text : List Char} {m : Integer32} :
    read text = .ok m ↔ IntegerNumeral text m.value := by
  constructor
  · intro h
    unfold read at h
    split at h
    · cases h
    · cases h
    · cases h
    · next digits hne =>
      obtain ⟨hrow, hv⟩ := readDigits_zero_eq_ok_iff.mp h
      rw [hv]
      exact .plus hrow (by rintro rfl; exact hne rfl)
    · next digits hne =>
      obtain ⟨hrow, hv⟩ := readDigits_zero_eq_ok_iff.mp h
      rw [hv]
      exact .minus hrow (by rintro rfl; exact hne rfl)
    · next digits hne _ _ _ _ =>
      obtain ⟨hrow, hv⟩ := readDigits_zero_eq_ok_iff.mp h
      rw [hv]
      exact .unsigned hrow (by rintro rfl; exact hne rfl)
  · intro h
    generalize hv : m.value = e at h
    cases h with
    | unsigned digits ne_nil =>
      rw [read_row digits ne_nil]
      exact readDigits_zero_eq_ok_iff.mpr ⟨digits, hv⟩
    | plus digits ne_nil =>
      rw [read_plus_row ne_nil]
      exact readDigits_zero_eq_ok_iff.mpr ⟨digits, hv⟩
    | minus digits ne_nil =>
      rw [read_neg_row ne_nil]
      exact readDigits_zero_eq_ok_iff.mpr ⟨digits, hv⟩

end Coinage.Integer32
