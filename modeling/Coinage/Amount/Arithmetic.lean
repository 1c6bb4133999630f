import Coinage.Amount.Basic

/-!
# Arithmetic of amounts

Sums, differences, negations and absolute values are exact, and say so where the exact result is
out of range: `add`, `sub`, `neg` and `abs` fail with the operation that overflowed, and the checked
forms answer nothing. The assigning forms update a current amount in place. An overflow ends an
update but takes nothing back: what has been stored by then is the amount that is left. A sum over
many amounts adds from left to right and fails at the first partial sum out of range.
-/
namespace Coinage

/-- The operation whose exact result is no amount. -/
inductive Overflow where
  | add
  | subtract
  | negate
deriving DecidableEq

namespace Overflow

def verb : Overflow → String
  | add => "add"
  | subtract => "subtract"
  | negate => "negate"

def message (o : Overflow) : String := "attempt to " ++ o.verb ++ " with overflow"

end Overflow

namespace Amount

/-- The amount of so many Hao, or the overflow that the operation ends in. -/
def fitting (o : Overflow) (n : Int) : Except Overflow Amount :=
  match ofHao? n with
  | some a => .ok a
  | none => .error o

/-- The sum. Mirrors `add`. -/
def add (a b : Amount) : Except Overflow Amount := fitting .add (a.hao + b.hao)

/-- The difference. Mirrors `sub`. -/
def sub (a b : Amount) : Except Overflow Amount := fitting .subtract (a.hao - b.hao)

/-- The opposite amount. Mirrors `neg`. -/
def neg (a : Amount) : Except Overflow Amount := fitting .negate (-a.hao)

/-- The absolute value; it negates an amount below zero. Mirrors `abs`. -/
def abs (a : Amount) : Except Overflow Amount := if a.isNegative then a.neg else .ok a

/-- The sum, if it is an amount. Mirrors `checked_add`. -/
def checkedAdd (a b : Amount) : Option Amount := ofHao? (a.hao + b.hao)

/-- The difference, if it is an amount. Mirrors `checked_sub`. -/
def checkedSub (a b : Amount) : Option Amount := ofHao? (a.hao - b.hao)

/-! ## In place -/

/-- An operation on a current amount. An overflow ends it, and what it has stored by then stays. -/
abbrev Update (α : Type) := ExceptT Overflow (StateM Amount) α

namespace Update

variable {α : Type}

/-- How the operation ends, and the amount that it leaves. -/
def apply (u : Update α) (a : Amount) : Except Overflow α × Amount := ExceptT.run u a

/-- The result with the amount that is left, unless an overflow ends the operation. -/
def run (u : Update α) (a : Amount) : Except Overflow (α × Amount) :=
  let (outcome, left) := u.apply a
  outcome.map (·, left)

end Update

/-- Stores the outcome of an operation on the current amount in its place. -/
def assign (op : Amount → Except Overflow Amount) : Update Unit := do set (← op (← get))

/-- Nothing is stored before an overflow, so the amount is left as it was. -/
theorem apply_assign (op : Amount → Except Overflow Amount) (a : Amount) :
    (assign op).apply a = match op a with
      | .ok b => (.ok (), b)
      | .error o => (.error o, a) := by
  show (ExceptT.bindCont set (op a) : StateM Amount (Except Overflow Unit)) a = _
  cases op a <;> rfl

-- an operation that stored first would leave what it stored
example (a b : Amount) (o : Overflow) :
    Update.apply (do set b; throw o : Update Unit) a = (.error o, b) := rfl

/-- Where it goes through, an assignment leaves what the operation answers. -/
theorem run_assign (op : Amount → Except Overflow Amount) (a : Amount) :
    (assign op).run a = (op a).map ((), ·) := by
  unfold Update.run
  rw [apply_assign]
  cases op a <;> rfl

/-- Adds to the current amount. Mirrors `add_assign`. -/
def addAssign (b : Amount) : Update Unit := assign (·.add b)

/-- Subtracts from the current amount. Mirrors `sub_assign`. -/
def subAssign (b : Amount) : Update Unit := assign (·.sub b)

/-! ## Sums -/

/-- The sum of a list, from the left. Mirrors `sum` over amounts. -/
def sum : List Amount → Except Overflow Amount := List.foldlM add zero

/-- The sum of the amounts that an array holds, from the left. Mirrors `sum` over references to
amounts. -/
def sumArray (held : Array Amount) : Except Overflow Amount := held.foldlM add zero

end Amount

end Coinage
