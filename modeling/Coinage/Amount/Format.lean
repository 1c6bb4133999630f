import Coinage.Amount.Conversion

/-!
# Amounts as text

`format` writes an amount in a denomination: the number, a blank, the label. Above the Hao the
number is the shortest numeral that reads back. From the Hao down it is rounded to the places
that make a whole number of Hao come out even: none for the Hao, one for a tenth of it, and so on.
Numbers of places beyond `maxPlaces` are made up with zeros. A number that is not finite is
written as its word.
-/
namespace Coinage.Amount

/-- The greatest count of places that is rounded to. Mirrors `MAX_PRECISION`. -/
def maxPlaces : Nat := 65535

/-- The count of places after the point in a denomination from the Hao down; none above. -/
def places? (u : Denomination) : Option Nat :=
  let places := -(u.exponent.value + baseExponent)
  if 0 ≤ places then some places.toNat else none

/-- The number part of a formatted amount. -/
def numeral (x : Binary64) (u : Denomination) : String :=
  match places? u with
  | some places =>
    if x.isFinite then
      let rounded := min places maxPlaces
      x.fixed rounded ++ String.ofList (List.replicate (places - rounded) '0')
    else x.text
  | none => x.text

/-- The amount in a denomination, with its label. Mirrors `format`. -/
def format (a : Amount) (u : Denomination) : String :=
  numeral (a.toUnit u) u ++ " " ++ u.label

/-- The amount in coins. Mirrors `Display` of amounts. -/
def display (a : Amount) : String := a.format .coin

/-- The amount as its exact number of Hao. Mirrors `Debug` of amounts. -/
def inspect (a : Amount) : String := String.ofList (Decimal.integer a.hao) ++ " Hao"

end Coinage.Amount
