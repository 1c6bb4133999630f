import Coinage.Binary64.Magnitude
import Coinage.Decimal.Basic

/-!
# The shortest decimal of a magnitude

Between the decimals that round to a magnitude, `shortest` picks one with the fewest significant
digits, and of these the nearest.

The search goes over the grids `digits · 10^e`, the coarsest first. If any point of a grid rounds
to the magnitude, then so does one of its two neighbours on that grid, so two points are tried on
each. The first grid with a hit has the fewest digits: a hit with fewer digits on a finer grid
would leave a power of ten between the two, which lies on a coarser grid and rounds alike.
Two hits on one grid are settled by distance, and a magnitude halfway between them is rounded up.
-/
namespace Coinage

attribute [local instance (high)] instPowNat

namespace Magnitude

/-- The magnitude nearest to a decimal. -/
def ofDecimal? (x : Decimal) : Option Magnitude :=
  nearest? (x.numerator * unitsInOne) x.denominator

/-- The magnitude counted in `10^-1074`, which is always a whole number. -/
def decimalUnits (m : Magnitude) : Nat := m.units * 5 ^ (1074 : Nat)

/-- The decimal, if it rounds to `m`. -/
def hit? (m : Magnitude) (x : Decimal) : Option Decimal :=
  if ofDecimal? x = some m then some x else none

/-- The nearer of two hits, or the only one. -/
def nearer? (belowIsNearer : Bool) : Option Decimal → Option Decimal → Option Decimal
  | some below, some above => some (if belowIsNearer then below else above)
  | some below, none => some below
  | none, above => above

/-- The decimal on the grid of `10^(k-1074)` that rounds to `m`, if there is one: the nearer
neighbour of `m`, or the only one that does. -/
def onGrid? (m : Magnitude) (k : Nat) : Option Decimal :=
  let below := m.decimalUnits / 10 ^ k
  let rest := m.decimalUnits % 10 ^ k
  nearer? (2 * rest < 10 ^ k) (m.hit? ⟨below, k - 1074⟩) (m.hit? ⟨below + 1, k - 1074⟩)

/-- The first hit on the grids from `k` down; the finest grid holds the magnitude itself. -/
def firstHit (m : Magnitude) : Nat → Decimal
  | 0 => ⟨m.decimalUnits, -1074⟩
  | k + 1 => (m.onGrid? (k + 1)).getD (firstHit m k)

/-- The decimal with the fewest significant digits that rounds to `m`, the nearest of them. -/
def shortest (m : Magnitude) : Decimal :=
  if m.rank = 0 then ⟨0, 0⟩ else firstHit m (m.decimalUnits.log2 / 3 + 1)

/-- The decimal with `places` digits after the point that is nearest to `m`, ties to the even
last digit. -/
def withPlaces (m : Magnitude) (places : Nat) : Decimal :=
  ⟨halfEven (m.units * 10 ^ places) unitsInOne, -places⟩

end Magnitude

end Coinage
