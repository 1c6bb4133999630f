import Coinage.Amount.Arithmetic
import Coinage.Binary64.Arithmetic
import Coinage.Denomination.Basic
import Coinage.Fault
import Coinage.Logged

/-!
# Amounts and binary64 numbers

`toUnit` divides the Hao of an amount by the Hao in one unit of a denomination, all in binary64
arithmetic. `ofNumber` is the way in: a number of coins or of Hao becomes an amount, `nan` and
the infinities are refused. `scale` multiplies an amount by a number, as a fee rate does.

Both roundings to whole Hao are `nearest`: half a Hao is added on the far side of zero and the
sum cut off towards zero. That rounds halves away from zero, up to the rounding of the addition
itself.
-/
namespace Coinage

/-- What one unit of an entered number stands for. Mirrors the flag `raw`, which is set for Hao. -/
inductive Basis where
  | coin
  | hao
deriving DecidableEq

namespace Amount

/-! ## To whole Hao -/

/-- The whole part of a number of Hao, cut off towards zero; out of range, the end of the range
on that side; zero for `nan`. Mirrors the casts in `round`. -/
def truncate : Binary64 → Amount
  | .nan => zero
  | .infinite true => least
  | .infinite false => greatest
  | .finite true m => clamp (-(m.units / Magnitude.unitsInOne : Nat))
  | .finite false m => clamp (m.units / Magnitude.unitsInOne : Nat)

/-- The amount nearest to a number of Hao, halves away from zero. Mirrors `round`. -/
def nearest (x : Binary64) : Amount :=
  if x < .zero then truncate (x - .half) else truncate (x + .half)

/-- The amount of an entered number. Mirrors `from_float`. -/
def ofNumber (basis : Basis) (x : Binary64) : Logged (Except Fault Amount) :=
  if x.isFinite then
    .silent <| .ok <|
      match basis with
      | .hao => nearest x
      | .coin => nearest (x * .ofInt oneCoin.hao)
  else .noting ("Rejecting amount " ++ x.text) (.error (.invalidAmount x))

/-! ## To denominations -/

/-- The number of Hao in one unit of a denomination. -/
def haoPer (u : Denomination) : Binary64 :=
  .powerOfTen (u.exponent.value + baseExponent)

/-- The amount as a number of units of a denomination. Mirrors `to_unit`. -/
def toUnit (a : Amount) (u : Denomination) : Binary64 := .ofInt a.hao / haoPer u

/-- The amount as a number of coins. Mirrors `to_omc`. -/
def toCoin (a : Amount) : Binary64 := a.toUnit .coin

/-- The amount times a number, to the nearest Hao. Mirrors `mul_f64`. -/
def scale (a : Amount) (x : Binary64) : Amount := nearest (.ofInt a.hao * x)

end Amount

end Coinage
