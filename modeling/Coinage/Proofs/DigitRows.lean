import Coinage.Decimal.Basic
import Mathlib.Algebra.Group.Nat.Defs
import Mathlib.Data.List.Basic
import Mathlib.Data.List.Induction
import Mathlib.Tactic.Common

/-!
# Rows of digits

A row of decimal digits denotes a number, and `Nat.toDigits` writes that number again without
leading zeros.

Results.

* `eq_of_rowValue_eq`: rows of one length that denote the same number are the same.
* `toDigits_rowValue`: a row without a leading zero is what is written for its number.
-/
namespace Coinage.Decimal

/-- The number that a row of digits denotes. -/
def rowValue (row : List Char) : Nat := Nat.ofDigitChars 10 row 0

def IsRow (row : List Char) : Prop := ∀ c ∈ row, c.isDigit = true

/-! ## One digit -/

theorem isDigit_iff {c : Char} : c.isDigit = true ↔ 48 ≤ c.toNat ∧ c.toNat ≤ 57 := by
  simp only [Char.isDigit, Bool.and_eq_true, decide_eq_true_eq]
  exact Iff.rfl

theorem digit_lt_ten {c : Char} (h : c.isDigit = true) : c.toNat - 48 < 10 := by
  have := isDigit_iff.mp h
  omega

theorem digitChar_digit {c : Char} (h : c.isDigit = true) : Nat.digitChar (c.toNat - 48) = c := by
  rw [← Char.toNat_inj, Nat.toNat_digitChar_of_lt_ten (digit_lt_ten h)]
  have := isDigit_iff.mp h
  omega

theorem digit_inj {c d : Char} (hc : c.isDigit = true) (hd : d.isDigit = true)
    (h : c.toNat - 48 = d.toNat - 48) : c = d := by
  rw [← digitChar_digit hc, ← digitChar_digit hd, h]

/-! ## Rows -/

variable {r s : List Char}

theorem IsRow.of_append (h : IsRow (r ++ s)) : IsRow r ∧ IsRow s :=
  ⟨fun c hc => h c (List.mem_append_left s hc), fun c hc => h c (List.mem_append_right r hc)⟩

theorem IsRow.append (hr : IsRow r) (hs : IsRow s) : IsRow (r ++ s) := fun c hc =>
  (List.mem_append.mp hc).elim (hr c) (hs c)

theorem isRow_replicate_zero (k : Nat) : IsRow (List.replicate k '0') := by
  intro c hc
  rw [List.eq_of_mem_replicate hc]; rfl

theorem isRow_toDigits (n : Nat) : IsRow (Nat.toDigits 10 n) := fun _ hc =>
  Nat.isDigit_of_mem_toDigits (by omega) (by omega) hc

theorem rowValue_toDigits (n : Nat) : rowValue (Nat.toDigits 10 n) = n :=
  Nat.ofDigitChars_ten_toDigits

theorem rowValue_append (r s : List Char) :
    rowValue (r ++ s) = rowValue r * 10 ^ s.length + rowValue s := by
  rw [rowValue, Nat.ofDigitChars_append, Nat.ofDigitChars_eq_ofDigitChars_zero, Nat.mul_comm]
  rfl

theorem rowValue_replicate_zero_append (k : Nat) (r : List Char) :
    rowValue (List.replicate k '0' ++ r) = rowValue r := by
  rw [rowValue, Nat.ofDigitChars_append, Nat.ofDigitChars_replicate_zero, Nat.mul_zero]
  rfl

/-- The last digit is worth one. -/
theorem rowValue_concat (r : List Char) (c : Char) :
    rowValue (r ++ [c]) = 10 * rowValue r + (c.toNat - 48) := by
  rw [rowValue_append, List.length_singleton, Nat.pow_one, Nat.mul_comm, rowValue]
  simp [rowValue, Nat.ofDigitChars_cons]

theorem rowValue_lt (h : IsRow r) : rowValue r < 10 ^ r.length := by
  induction r using List.reverseRecOn with
  | nil => decide
  | append_singleton r c ih =>
    obtain ⟨hr, hc⟩ := h.of_append
    have := ih hr
    have := digit_lt_ten (hc c (List.mem_singleton_self c))
    rw [rowValue_concat, List.length_append, List.length_singleton, Nat.pow_succ]
    omega

/-- Rows of one length that denote the same number are the same. -/
theorem eq_of_rowValue_eq (hr : IsRow r) (hs : IsRow s) (hl : r.length = s.length)
    (hv : rowValue r = rowValue s) : r = s := by
  induction r using List.reverseRecOn generalizing s with
  | nil => exact (List.length_eq_zero_iff.mp hl.symm).symm
  | append_singleton r c ih =>
    rcases List.eq_nil_or_concat' s with rfl | ⟨s, d, rfl⟩
    · simp at hl
    · obtain ⟨hr, hc⟩ := hr.of_append
      obtain ⟨hs, hd⟩ := hs.of_append
      have hc := hc c (List.mem_singleton_self c)
      have hd := hd d (List.mem_singleton_self d)
      have := digit_lt_ten hc
      have := digit_lt_ten hd
      rw [rowValue_concat, rowValue_concat] at hv
      rw [ih hr hs (by simpa using hl) (by omega), digit_inj hc hd (by omega)]

/-- A row that ends in another digit than zero denotes no multiple of ten. -/
theorem rowValue_mod_ten_ne_zero (hr : IsRow r) (h0 : r ≠ []) (h : r.getLast? ≠ some '0') :
    rowValue r % 10 ≠ 0 := by
  rcases List.eq_nil_or_concat' r with rfl | ⟨r, c, rfl⟩
  · exact absurd rfl h0
  · have hc := hr.of_append.2 c (List.mem_singleton_self c)
    have := digit_lt_ten hc
    rw [rowValue_concat]
    intro hm
    have : c = '0' := digit_inj hc rfl (by rw [show '0'.toNat - 48 = 0 from rfl]; omega)
    simp [this] at h

/-! ## What is written for a number -/

theorem getLast?_toDigits (n : Nat) :
    (Nat.toDigits 10 n).getLast? = some (Nat.digitChar (n % 10)) := by
  rw [Nat.toDigits_eq_if (by omega)]
  split
  · rw [Nat.mod_eq_of_lt ‹_›]; rfl
  · exact List.getLast?_concat

theorem head?_toDigits {n : Nat} (h : n ≠ 0) : (Nat.toDigits 10 n).head? ≠ some '0' := by
  induction n using Nat.strongRecOn with
  | _ n ih =>
    rw [Nat.toDigits_eq_if (by omega)]
    split
    · simpa using h
    · rw [List.head?_append_of_ne_nil _ Nat.toDigits_ne_nil]
      exact ih (n / 10) (by omega) (by omega)

theorem toDigits_rowValue (hr : IsRow r) (hne : r ≠ []) (h : r = ['0'] ∨ r.head? ≠ some '0') :
    Nat.toDigits 10 (rowValue r) = r := by
  rcases h with rfl | h
  · decide
  induction r using List.reverseRecOn with
  | nil => exact absurd rfl hne
  | append_singleton r c ih =>
    obtain ⟨hr, hc⟩ := hr.of_append
    have hc := hc c (List.mem_singleton_self c)
    rw [rowValue_concat]
    rcases List.eq_nil_or_concat' r with rfl | ⟨t, d, e⟩
    · rw [show rowValue [] = 0 from rfl, Nat.mul_zero, Nat.zero_add,
        Nat.toDigits_of_lt_base (digit_lt_ten hc), digitChar_digit hc, List.nil_append]
    · have hne : r ≠ [] := by simp [e]
      have hh : r.head? ≠ some '0' := by rwa [List.head?_append_of_ne_nil _ hne] at h
      have ih := ih hr hne hh
      -- zero would be written with a leading zero
      have hpos : 0 < rowValue r := by
        refine Nat.pos_of_ne_zero fun h0 => hh ?_
        rw [← ih, h0]; rfl
      rw [← Nat.toDigits_append_toDigits (by omega) hpos (digit_lt_ten hc), ih,
        Nat.toDigits_of_lt_base (digit_lt_ten hc), digitChar_digit hc]

end Coinage.Decimal
