/-!
# Amounts

An amount is a whole number of Hao of 64 signed bits. Amounts are ordered by that number.
`ofHao?` accepts exactly the integers in range, `clamp` takes the others to the nearer end.
-/
namespace Coinage

-- core's powers, whatever else is in scope
attribute [local instance (high)] instPowNat

/-- A whole number of Hao. Mirrors `Amount`. -/
structure Amount where
  hao : Int
  lower : -2 ^ (63 : Nat) ≤ hao
  upper : hao ≤ 2 ^ (63 : Nat) - 1
deriving DecidableEq

namespace Amount

/-- Nothing. Mirrors `ZERO`. -/
def zero : Amount := ⟨0, by decide, by decide⟩
/-- The least amount. -/
def least : Amount := ⟨-2 ^ (63 : Nat), by decide, by decide⟩
/-- The greatest amount. -/
def greatest : Amount := ⟨2 ^ (63 : Nat) - 1, by decide, by decide⟩
/-- One coin is a hundred million Hao. Mirrors `HAO_PER_OMC`. -/
def oneCoin : Amount := ⟨100000000, by decide, by decide⟩

instance : Inhabited Amount := ⟨zero⟩

/-- The amount of so many Hao, where it is in range. -/
def ofHao? (n : Int) : Option Amount :=
  if h : -2 ^ (63 : Nat) ≤ n ∧ n ≤ 2 ^ (63 : Nat) - 1 then some ⟨n, h.1, h.2⟩ else none

/-- The amount nearest to so many Hao: out of range, the end of the range on that side. -/
def clamp (n : Int) : Amount :=
  if n < -2 ^ (63 : Nat) then least else (ofHao? n).getD greatest

/-- Whether the amount is below zero. Mirrors `is_negative`. -/
def isNegative (a : Amount) : Bool := a.hao < 0

/-! ## Order -/

instance : LE Amount := ⟨fun a b => a.hao ≤ b.hao⟩
instance : LT Amount := ⟨fun a b => a.hao < b.hao⟩
instance : DecidableLE Amount := fun a b => inferInstanceAs (Decidable (a.hao ≤ b.hao))
instance : DecidableLT Amount := fun a b => inferInstanceAs (Decidable (a.hao < b.hao))
instance : Ord Amount := ⟨fun a b => compare a.hao b.hao⟩
instance : Min Amount := minOfLe
instance : Max Amount := maxOfLe

theorem hao_inj {a b : Amount} : a.hao = b.hao ↔ a = b := by
  cases a; cases b; simp

theorem ofHao?_eq_some_iff {n : Int} {a : Amount} : ofHao? n = some a ↔ a.hao = n := by
  have := a.lower; have := a.upper
  unfold ofHao?
  split
  · rw [Option.some_inj, ← hao_inj, eq_comm]
  · exact ⟨nofun, fun h => by omega⟩

theorem hao_clamp (n : Int) :
    (clamp n).hao = max (-2 ^ (63 : Nat)) (min n (2 ^ (63 : Nat) - 1)) := by
  unfold clamp ofHao? least greatest
  split
  · simp only; omega
  · split <;> simp only [Option.getD] <;> omega

end Amount

end Coinage
