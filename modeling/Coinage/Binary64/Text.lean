import Coinage.Binary64.Basic
import Coinage.Decimal.Shortest

/-!
# Binary64 numbers as text

Three renderings. `text` is the shortest plain numeral that reads back; `inspect` is the same
digits in a form that shows the number is not a whole-number type: whole ones get `.0`, and very
small and very large ones are written with a power of ten; `fixed` has a given count of places,
correctly rounded. The sign of zero is written in each; `nan` has no sign.
-/
namespace Coinage.Binary64

attribute [local instance (high)] instPowNat

/-- The sign before a rendering of the magnitude; the words for numbers that have none. -/
def render (layout : Magnitude → List Char) : Binary64 → String
  | nan => "NaN"
  | infinite true => "-inf"
  | infinite false => "inf"
  | finite true m => String.ofList ('-' :: layout m)
  | finite false m => String.ofList (layout m)

/-- The shortest numeral that reads back, written out in full. -/
def text : Binary64 → String := render fun m => m.shortest.plain

/-- The correctly rounded numeral with `places` digits after the point. -/
def fixed (places : Nat) : Binary64 → String := render fun m => (m.withPlaces places).plain

/-- Magnitudes below `10^-4`, zero apart, and from `10^16` on are written with a power of ten. -/
def usesPower (m : Magnitude) : Bool :=
  m.rank ≠ 0 && (m.value < mkRat 1 (10 ^ (4 : Nat)) || mkRat (10 ^ (16 : Nat)) 1 ≤ m.value)

/-- The shortest numeral that reads back, with a point or a power of ten in it. -/
def inspect : Binary64 → String :=
  render fun m =>
    let x := m.shortest
    if usesPower m then x.scientific
    else if x.exponent < 0 then x.plain
    else x.plain ++ ['.', '0']

end Coinage.Binary64
