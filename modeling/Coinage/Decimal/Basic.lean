/-!
# Decimals and their two layouts

A decimal is a whole number of some power of ten. `plain` writes it out in full, as many places
after the point as the power asks for; `scientific` puts the point behind the first digit and
the power of ten at the end.
-/
namespace Coinage

-- core's powers, whatever else is in scope
attribute [local instance (high)] instPowNat

/-- The number `digits · 10^exponent`. -/
structure Decimal where
  digits : Nat
  exponent : Int
deriving DecidableEq

namespace Decimal

/-- The value is `numerator / denominator`. -/
def numerator (x : Decimal) : Nat := x.digits * 10 ^ x.exponent.toNat

/-- One for a whole number of units, else the power of ten below the fraction line. -/
def denominator (x : Decimal) : Nat := 10 ^ (-x.exponent).toNat

/-- The decimal as a rational number. -/
def value (x : Decimal) : Rat := mkRat x.numerator x.denominator

/-- All digits, none of them left to a power of ten: `-exponent` places after the point, and no
point where the exponent is not negative. -/
def plain (x : Decimal) : List Char :=
  match x.exponent with
  | .ofNat k => Nat.toDigits 10 (x.digits * 10 ^ k)
  | .negSucc k =>
    let one := 10 ^ (k + 1)
    Nat.toDigits 10 (x.digits / one) ++
      '.' :: (Nat.toDigits 10 (x.digits % one)).leftpad (k + 1) '0'

/-- An integer in decimal digits, a minus sign before a negative one. -/
def integer (n : Int) : List Char :=
  if n < 0 then '-' :: Nat.toDigits 10 n.natAbs else Nat.toDigits 10 n.natAbs

/-- One digit before the point, no point when no digit follows, and the power of ten of the
first digit after an `e`. -/
def scientific (x : Decimal) : List Char :=
  match Nat.toDigits 10 x.digits with
  | [] => []
  | first :: rest =>
    let fraction := if rest.isEmpty then [] else '.' :: rest
    first :: fraction ++ 'e' :: integer (x.exponent + rest.length)

end Decimal

end Coinage
