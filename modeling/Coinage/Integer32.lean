/-!
# Integers of 32 bits as numerals

A numeral is an optional sign and one or more ASCII digits, leading zeros allowed. It is read
from left to right and the first character that cannot be taken decides the fault: one that is no
digit, or one that carries the value out of range. A character that is no digit is reported as
such even where the value could not have taken a digit there.
-/
namespace Coinage

-- core's powers, whatever else is in scope
attribute [local instance (high)] instPowNat

/-- An integer of 32 signed bits. -/
structure Integer32 where
  value : Int
  lower : -2 ^ (31 : Nat) ≤ value
  upper : value ≤ 2 ^ (31 : Nat) - 1
deriving DecidableEq

/-- Why a text is not the numeral of an integer of 32 bits. -/
inductive IntegerFault where
  | empty
  | invalidDigit
  | aboveRange
  | belowRange
deriving DecidableEq

namespace IntegerFault

def message : IntegerFault → String
  | empty => "cannot parse integer from empty string"
  | invalidDigit => "invalid digit found in string"
  | aboveRange => "number too large to fit in target type"
  | belowRange => "number too small to fit in target type"

/-- The short name of the fault. -/
def kind : IntegerFault → String
  | empty => "Empty"
  | invalidDigit => "InvalidDigit"
  | aboveRange => "PosOverflow"
  | belowRange => "NegOverflow"

end IntegerFault

namespace Integer32

def zero : Integer32 := ⟨0, by decide, by decide⟩

/-- The integer itself where it has 32 bits. -/
def ofInt? (n : Int) : Option Integer32 :=
  if h : -2 ^ (31 : Nat) ≤ n ∧ n ≤ 2 ^ (31 : Nat) - 1 then some ⟨n, h.1, h.2⟩ else none

theorem value_inj {m n : Integer32} : m.value = n.value ↔ m = n := by
  cases m; cases n; simp

theorem ofInt?_eq_some_iff {n : Int} {m : Integer32} : ofInt? n = some m ↔ m.value = n := by
  have := m.lower; have := m.upper
  unfold ofInt?
  split
  · rw [Option.some_inj, ← value_inj, eq_comm]
  · exact ⟨nofun, fun h => by omega⟩

/-- The value of an ASCII digit. -/
def digit? (c : Char) : Option Nat := if c.isDigit then some (c.toNat - 48) else none

/-- Takes digits into the value so far, away from zero on the side of the sign. -/
def readDigits (negative : Bool) : Integer32 → List Char → Except IntegerFault Integer32
  | sofar, [] => .ok sofar
  | sofar, c :: rest =>
    match digit? c with
    | none => .error .invalidDigit
    | some d =>
      match ofInt? (10 * sofar.value + if negative then -(d : Int) else d) with
      | none => .error (if negative then .belowRange else .aboveRange)
      | some next => readDigits negative next rest

/-- The integer that a numeral denotes. -/
def read : List Char → Except IntegerFault Integer32
  | [] => .error .empty
  | ['+'] | ['-'] => .error .invalidDigit
  | '+' :: digits => readDigits false zero digits
  | '-' :: digits => readDigits true zero digits
  | digits => readDigits false zero digits

end Integer32

end Coinage
