import Coinage.Amount.Format
import Coinage.Denomination.Reading
import Coinage.Ranking

/-!
# Sessions

A session is a calculator for amounts: a current amount, a denomination to show it in, and a
stack of amounts put aside. Each step answers with a reply. A step that fails answers why, and the
session goes on from what the step has left: a failure takes nothing back.
-/
namespace Coinage

/-- Why a step failed. -/
inductive Failure where
  | fault (fault : Fault)
  | overflow (overflow : Overflow)
deriving DecidableEq

/-- The state of a session. -/
structure Session where
  current : Amount
  unit : Denomination
  stack : Array Amount
deriving DecidableEq

/-- What a session can be asked to do. -/
inductive Step where
  /-- Takes an amount as the current one. -/
  | set (a : Amount)
  /-- Takes an entered number as the current amount. -/
  | enter (basis : Basis) (x : Binary64)
  | add (a : Amount)
  | sub (a : Amount)
  | addAssign (a : Amount)
  | subAssign (a : Amount)
  /-- Adds where the sum is an amount, and otherwise does nothing. -/
  | checkedAdd (a : Amount)
  /-- Subtracts where the difference is an amount, and otherwise does nothing. -/
  | checkedSub (a : Amount)
  | neg
  | abs
  /-- Multiplies the current amount by a number. -/
  | scale (x : Binary64)
  /-- Takes the denomination that a text names. -/
  | readUnit (name : String)
  /-- Takes a denomination. -/
  | setUnit (u : Denomination)
  /-- Shows the current amount in the current denomination. -/
  | format
  /-- Shows the current amount in coins. -/
  | display
  /-- Answers the current amount as a number of the current denomination. -/
  | toUnit
  /-- Takes the current amount to a number and back: with basis `hao` the number shown in the
  current denomination is read as Hao, with basis `coin` the number of coins as coins. -/
  | reload (basis : Basis)
  /-- Puts the current amount on the stack. -/
  | push
  /-- Takes the sum of the stack as the current amount. -/
  | sum
  /-- Puts the stack in ascending order. -/
  | sort
  /-- Starts over. -/
  | clear
deriving DecidableEq

/-- What a step answers. -/
inductive Reply where
  | done
  | amount (a : Amount)
  /-- A checked operation had no result. -/
  | absent
  | text (text : String)
  | number (x : Binary64)
  | size (n : Nat)
  | amounts (as : List Amount)
  | failed (why : Failure)
deriving DecidableEq

namespace Session

/-- Where a session starts: no money, shown in coins, nothing on the stack. -/
def start : Session := ⟨.zero, .coin, #[]⟩

/-! ## Actions -/

/-- What a step does to a session, and its reply. A failure ends it, and what it has stored by then
stays. -/
abbrev Action := ExceptT Failure (StateM Session) Reply

/-- The session that an action leaves, and the reply. -/
def Action.apply (act : Action) (s : Session) : Session × Reply :=
  match ExceptT.run act s with
  | (.ok reply, next) => (next, reply)
  | (.error why, next) => (next, .failed why)

/-- An action that first looks at the session. -/
theorem Action.apply_get_bind (f : Session → Action) (s : Session) :
    Action.apply (get >>= f) s = (f s).apply s := rfl

/-- Takes the outcome of an operation as the current amount. -/
def take (outcome : Except Failure Amount) : Action := do
  let a ← outcome
  modify ({ · with current := a })
  return .done

theorem apply_take (outcome : Except Failure Amount) (s : Session) :
    (take outcome).apply s = match outcome with
      | .ok a => ({ s with current := a }, .done)
      | .error why => (s, .failed why) := by
  cases outcome <;> rfl

/-- Takes the outcome of an arithmetic operation on the current amount. -/
def calculate (op : Amount → Except Overflow Amount) : Action := do
  take ((op (← get).current).mapError .overflow)

theorem apply_calculate (op : Amount → Except Overflow Amount) (s : Session) :
    (calculate op).apply s = (take ((op s.current).mapError .overflow)).apply s :=
  Action.apply_get_bind _ s

/-- Lets an operation work on the current amount in place. What it leaves there is kept before its
overflow, if any, ends the step. -/
def update (op : Amount.Update Unit) : Action := do
  let (outcome, left) := op.apply (← get).current
  modify ({ · with current := left })
  let _ ← outcome.mapError Failure.overflow
  return .done

theorem apply_update (op : Amount.Update Unit) (s : Session) :
    (update op).apply s = ({ s with current := (op.apply s.current).2 },
      match (op.apply s.current).1 with
      | .ok _ => .done
      | .error o => .failed (.overflow o)) := by
  show Action.apply
    (ExceptT.bindCont (fun _ => pure .done) ((op.apply s.current).1.mapError .overflow)) _ = _
  cases (op.apply s.current).1 <;> rfl

/-- An assignment stores nothing before it overflows, so it takes the outcome and no more. -/
theorem apply_update_assign (op : Amount → Except Overflow Amount) (s : Session) :
    (update (Amount.assign op)).apply s = (calculate op).apply s := by
  rw [apply_update, Amount.apply_assign, apply_calculate, apply_take]
  cases op s.current <;> rfl

/-- Takes the result of a checked operation as the current amount, if there is one. -/
def takeChecked : Option Amount → Action
  | some a => do
    modify ({ · with current := a })
    return .amount a
  | none => return .absent

theorem apply_takeChecked (result : Option Amount) (s : Session) :
    (takeChecked result).apply s = match result with
      | some a => ({ s with current := a }, .amount a)
      | none => (s, .absent) := by
  cases result <;> rfl

/-- Takes the outcome of reading a denomination and answers its label. -/
def takeUnit (outcome : Except Failure Denomination) : Action := do
  let u ← outcome
  modify ({ · with unit := u })
  return .text u.label

theorem apply_takeUnit (outcome : Except Failure Denomination) (s : Session) :
    (takeUnit outcome).apply s = match outcome with
      | .ok u => ({ s with unit := u }, .text u.label)
      | .error why => (s, .failed why) := by
  cases outcome <;> rfl

/-- Answers something about the session. -/
def ask (question : Session → Reply) : Action := do return question (← get)

/-- Takes an entered number as the current amount. -/
def enter (basis : Basis) (x : Binary64) : Action :=
  take ((Amount.ofNumber basis x).result.mapError .fault)

/-! ## Steps -/

/-- The number that a reload reads, by its basis. -/
def shown (s : Session) : Basis → Binary64
  | .hao => s.current.toUnit s.unit
  | .coin => s.current.toCoin

/-- What each step does. -/
def perform : Step → Action
  | .set a => take (.ok a)
  | .enter basis x => enter basis x
  | .add a => calculate (·.add a)
  | .sub a => calculate (·.sub a)
  | .addAssign a => update (Amount.addAssign a)
  | .subAssign a => update (Amount.subAssign a)
  | .checkedAdd a => do takeChecked ((← get).current.checkedAdd a)
  | .checkedSub a => do takeChecked ((← get).current.checkedSub a)
  | .neg => calculate Amount.neg
  | .abs => calculate Amount.abs
  | .scale x => do take (.ok ((← get).current.scale x))
  | .readUnit name => takeUnit ((Denomination.parse name).result.mapError .fault)
  | .setUnit u => takeUnit (.ok u)
  | .format => ask fun s => .text (s.current.format s.unit)
  | .display => ask fun s => .text s.current.display
  | .toUnit => ask fun s => .number (s.current.toUnit s.unit)
  | .reload basis => do enter basis ((← get).shown basis)
  | .push => do
    modify fun s => { s with stack := s.stack.push s.current }
    return .size (← get).stack.size
  | .sum => do take ((Amount.sumArray (← get).stack).mapError .overflow)
  | .sort => do
    let stack := sorted (← get).stack.toList
    modify ({ · with stack := stack.toArray })
    return .amounts stack
  | .clear => do
    set start
    return .done

/-- The session that a step leaves, and the reply. -/
def step (s : Session) (st : Step) : Session × Reply := (perform st).apply s

/-- The session after each step of a run, with the reply to that step. -/
def run (s : Session) : List Step → List (Session × Reply)
  | [] => []
  | st :: rest =>
    let next := s.step st
    next :: run next.1 rest

end Session

end Coinage
