import Coinage.Binary64.Basic
import Coinage.Decimal.Shortest

/-!
# Reading decimal numerals

The numerals of both layouts, plain and scientific: digits, a fraction after a point, a power of
ten after an `e`. Fraction and power may be missing, but a point is followed by a digit.
`Decimal.read?` gives the decimal exactly as written, `Binary64.read?` the binary64 number nearest
to a numeral with or without a sign.
-/
namespace Coinage

namespace Decimal

/-- The number that a row of one or more digits denotes. -/
def natural? (digits : List Char) : Option Nat :=
  if digits ≠ [] ∧ digits.all Char.isDigit then some (Nat.ofDigitChars 10 digits 0) else none

/-- The digits after a point, where there is one, and what follows them. -/
def fraction? : List Char → Option (List Char × List Char)
  | '.' :: rest =>
    if (rest.takeWhile Char.isDigit).isEmpty then none
    else some (rest.takeWhile Char.isDigit, rest.dropWhile Char.isDigit)
  | rest => some ([], rest)

/-- The power of ten at the end of a numeral, zero where there is none. -/
def power? : List Char → Option Int
  | [] => some 0
  | 'e' :: '-' :: digits => (natural? digits).map fun n => -n
  | 'e' :: digits => (natural? digits).map fun n => n
  | _ => none

/-- The decimal that a numeral without a sign denotes, with the exponent it is written with. -/
def read? (text : List Char) : Option Decimal := do
  let whole := text.takeWhile Char.isDigit
  if whole.isEmpty then none
  let (fraction, rest) ← fraction? (text.dropWhile Char.isDigit)
  let power ← power? rest
  return ⟨Nat.ofDigitChars 10 (whole ++ fraction) 0, power - fraction.length⟩

end Decimal

namespace Binary64

/-- The number nearest to a decimal with a sign. -/
def ofDecimal (negative : Bool) (x : Decimal) : Binary64 :=
  orInfinite negative (Magnitude.ofDecimal? x)

/-- The number nearest to what a numeral denotes. -/
def read? : List Char → Option Binary64
  | '-' :: text => (Decimal.read? text).map (ofDecimal true)
  | text => (Decimal.read? text).map (ofDecimal false)

end Binary64

end Coinage
