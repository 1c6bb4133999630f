import Coinage.Rounding

/-!
# Magnitudes of binary64 numbers

The finite binary64 numbers without their signs, in ascending order, are the naturals below
`2047 · 2^52`: the `rank` of a magnitude is its place in that order, which is also how the 63
lower bits of its encoding read as a number. Each binade holds `2^52` ranks, the first two
share one spacing, and from there the spacing doubles with every binade. So every magnitude is a
whole number of units of `2^-1074`, the spacing of the lowest binades.

`nearest? n d` is the magnitude nearest to `n / d` units. It rounds once, on the spacing of the
binade that the quotient lies in; a carry into the next binade needs no case of its own, since
ranks go on counting there.
-/
namespace Coinage

-- core's powers, whatever else is in scope
attribute [local instance (high)] instPowNat

/-- A finite binary64 number without its sign. -/
structure Magnitude where
  /-- The place in ascending order, zero first. -/
  rank : Nat
  rank_lt : rank < 2047 * 2 ^ (52 : Nat)
deriving DecidableEq

namespace Magnitude

/-- Zero is the least magnitude. -/
def zero : Magnitude := ⟨0, by decide⟩

/-- The spacing around a magnitude is `2^shift` units. -/
def shift (m : Magnitude) : Nat := m.rank / 2 ^ (52 : Nat) - 1

/-- The magnitude counted in its own spacing; below `2^53`. -/
def significand (m : Magnitude) : Nat := m.rank - m.shift * 2 ^ (52 : Nat)

/-- The magnitude counted in units of `2^-1074`. -/
def units (m : Magnitude) : Nat := m.significand * 2 ^ m.shift

/-- The count of units in the number one. -/
def unitsInOne : Nat := 2 ^ (1074 : Nat)

/-- The magnitude as a rational number. -/
def value (m : Magnitude) : Rat := mkRat m.units unitsInOne

/-- The spacing of the binade that `n / d` units lie in is `2^shiftOf n d` units. -/
def shiftOf (n d : Nat) : Nat := (n / d).log2 - 52

/-- The rank of the magnitude nearest to `n / d` units, ties to the even significand, as if the
binades went on without end. -/
def nearestRank (n d : Nat) : Nat :=
  shiftOf n d * 2 ^ (52 : Nat) + halfEven n (d * 2 ^ shiftOf n d)

/-- The magnitude nearest to `n / d` units; none when that is beyond the greatest one. -/
def nearest? (n d : Nat) : Option Magnitude :=
  if h : nearestRank n d < 2047 * 2 ^ (52 : Nat) then some ⟨nearestRank n d, h⟩ else none

theorem significand_lt (m : Magnitude) : m.significand < 2 ^ (53 : Nat) := by
  have := Nat.div_add_mod m.rank (2 ^ (52 : Nat))
  have := Nat.mod_lt m.rank (show 0 < 2 ^ (52 : Nat) by decide)
  unfold significand shift
  omega

/-- Above the two lowest binades a significand has its full width. -/
theorem le_significand (m : Magnitude) (h : 0 < m.shift) : 2 ^ (52 : Nat) ≤ m.significand := by
  have := Nat.div_add_mod m.rank (2 ^ (52 : Nat))
  unfold significand shift at *
  omega

end Magnitude

end Coinage
