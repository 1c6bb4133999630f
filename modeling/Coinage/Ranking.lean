/-!
# Rankings

What can be said of a list of ordered things, amounts or denominations, without regard to how the
list is arranged: the things in ascending order, the least and the greatest, and how many different
ones there are.
-/
namespace Coinage

/-- A list of ordered things, described without its arrangement. -/
structure Ranking (α : Type) where
  ascending : List α
  least : Option α
  greatest : Option α
  distinct : Nat

/-- The list in ascending order. -/
def sorted {α : Type} [LE α] [DecidableLE α] (xs : List α) : List α :=
  xs.mergeSort fun x y => decide (x ≤ y)

/-- The ranking of a list. -/
def Ranking.ofList {α : Type} [LE α] [DecidableLE α] [Min α] [Max α] [BEq α] (xs : List α) :
    Ranking α :=
  ⟨sorted xs, xs.min?, xs.max?, xs.eraseDups.length⟩

end Coinage
