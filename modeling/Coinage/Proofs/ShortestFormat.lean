import Coinage.Proofs.ExactFormat
import Coinage.Proofs.LargeUnits
import Coinage.Proofs.PlainNumerals
import Coinage.Proofs.SignificantDigits

/-!
# Formatting is faithful and short

Above the Hao the number in a formatted amount is the shortest decimal of a finite number, written
out in full. It can be read back, and nothing that can be read back as the same number has fewer
significant digits.

Results.

* `exists_numeral_shortest`: the numeral that is written for a finite number.
* `takeWhile_format`: where the number ends in a formatted amount.
* `format_shortest`: what is written is faithful and has the fewest digits.
-/
namespace Coinage

namespace Binary64

open Magnitude

theorem ofDecimal_eq_finite_iff {negative s : Bool} {m : Magnitude} {x : Decimal} :
    ofDecimal negative x = finite s m ↔ negative = s ∧ ofDecimal? x = some m := by
  unfold ofDecimal
  cases ofDecimal? x <;> simp [orInfinite]

/-- The shortest decimal is written as a numeral that is read as the number. -/
theorem exists_numeral_shortest (s : Bool) (m : Magnitude) :
    ∃ n : Decimal.Numeral, n.text = Decimal.sign s ++ m.shortest.plain ∧
      n.decimal.value = m.shortest.value ∧ read? n.text = some (finite s m) := by
  obtain ⟨n, ht, hv, hs⟩ := Decimal.exists_numeral_plain s m.shortest shortest_reduced
  rw [← n.value_decimal] at hv
  refine ⟨n, ht, hv, ?_⟩
  rw [read?_text, Option.some_inj, ofDecimal_eq_finite_iff]
  exact ⟨hs, ofDecimal?_of_value_eq hv⟩

end Binary64

namespace Amount

open Binary64 Magnitude

/-- The number is what stands in front of the first blank. -/
theorem takeWhile_format {a : Amount} {u : Denomination} {text : List Char}
    (h : numeral (a.toUnit u) u = String.ofList text) (ht : ∀ c ∈ text, c ≠ ' ') :
    (a.format u).toList.takeWhile (· ≠ ' ') = text := by
  rw [format, h, String.toList_append, String.toList_append, String.toList_ofList,
    List.append_assoc, List.takeWhile_append_of_pos (by simpa using ht)]
  simp

/-- In a denomination above the Hao an amount is a finite number, and what is written in front of
the first blank is a numeral that is read as this number, zeros with the sign that they have. No
decimal that is nearest to the same number has fewer significant digits. -/
theorem format_shortest (a : Amount) (u : Denomination) (hu : -8 < u.exponent.value) :
    (a.toUnit u).isFinite = true ∧
    ∃ n : Decimal.Numeral, (a.format u).toList.takeWhile (· ≠ ' ') = n.text ∧
      read? n.text = some (a.toUnit u) ∧
      ∀ (negative : Bool) (x : Decimal), ofDecimal negative x = a.toUnit u →
        n.decimal.significantDigits ≤ x.significantDigits := by
  have hfin := a.toUnit_isFinite (u := u) (by omega)
  refine ⟨hfin, ?_⟩
  obtain ⟨k, hk⟩ := Int.eq_ofNat_of_zero_le (show 0 ≤ u.exponent.value + 8 by omega)
  obtain ⟨s, m, hx, -⟩ := Denotes.exists_finite (x := a.toUnit u) ⟨hfin, rfl⟩
  obtain ⟨n, ht, hv, hr⟩ := exists_numeral_shortest s m
  have hnum : numeral (a.toUnit u) u = String.ofList n.text := by
    rw [hx, numeral_finite s m hk, if_neg (by omega), ht]
  refine ⟨n, takeWhile_format hnum n.ne_blank_of_mem_text, hx ▸ hr, ?_⟩
  intro negative x h
  rw [hx] at h
  exact significantDigits_le_of_hit hv (ofDecimal_eq_finite_iff.mp h).2

/-- The greatest amount has nineteen digits, but sixteen are enough for the number that is shown. -/
theorem format_shortest_greatest :
    -8 < Denomination.coin.exponent.value ∧
    greatest.format .coin = "92233720368.54776 OMC" ∧
    (greatest.toUnit .coin).isFinite = true ∧
    ∃ n : Decimal.Numeral, "92233720368.54776".toList = n.text ∧
      read? n.text = some (greatest.toUnit .coin) ∧
      ∀ (negative : Bool) (x : Decimal), ofDecimal negative x = greatest.toUnit .coin →
        n.decimal.significantDigits ≤ x.significantDigits := by
  have hu : -8 < Denomination.coin.exponent.value := by decide
  have hf : greatest.format .coin = "92233720368.54776 OMC" := by decide +kernel
  obtain ⟨hfin, n, ht, hr⟩ := format_shortest greatest .coin hu
  rw [hf] at ht
  exact ⟨hu, hf, hfin, n, ht, hr⟩

end Amount

end Coinage
