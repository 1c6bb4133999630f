import Coinage.Session
import Mathlib.Algebra.Order.Group.Unbundled.Int

/-!
# The arithmetic of sessions on the unbounded integers

`reference` is a machine for the arithmetic steps that knows only an integer: it takes the exact
result of a step if that is in the range of amounts, and keeps its number and says so if it is not.
Sums and differences come in three forms, which differ in what they report and in nothing else.

Results.

* `observed_step_toStep`: an arithmetic step of a session does what the machine does.
* `step_plainForm`: the form of a sum or a difference does not matter for the session after it.
* `run_refines_exact`: both for whole runs.
-/
namespace Coinage

-- core's powers, whatever else is in scope
attribute [local instance (high)] instPowNat

/-- How a sum or a difference is asked for. -/
inductive Form where
  | plain
  | assigning
  | checked

/-- The arithmetic steps. -/
inductive Arithmetic where
  | set (a : Amount)
  | add (form : Form) (a : Amount)
  | sub (form : Form) (a : Amount)
  | neg
  | abs

namespace Form

/-- The reply to an operation whose result is an amount. -/
def accepted : Form → Amount → Reply
  | checked, a => .amount a
  | _, _ => .done

/-- The reply to an operation whose result is out of range. -/
def refused : Form → Overflow → Reply
  | checked, _ => .absent
  | _, o => .failed (.overflow o)

/-- The range of amounts. -/
def InRange (n : Int) : Prop := -2 ^ (63 : Nat) ≤ n ∧ n ≤ 2 ^ (63 : Nat) - 1

instance (n : Int) : Decidable (InRange n) := inferInstanceAs (Decidable (_ ∧ _))

/-- Takes the exact result `n` if it is in range, and keeps `acc` and says so otherwise. -/
def settle (form : Form) (o : Overflow) (acc n : Int) : Int × Reply :=
  if h : InRange n then (n, form.accepted ⟨n, h.1, h.2⟩) else (acc, form.refused o)

end Form

namespace Arithmetic

/-- The step of a session. -/
def toStep : Arithmetic → Step
  | set a => .set a
  | add .plain a => .add a
  | add .assigning a => .addAssign a
  | add .checked a => .checkedAdd a
  | sub .plain a => .sub a
  | sub .assigning a => .subAssign a
  | sub .checked a => .checkedSub a
  | neg => .neg
  | abs => .abs

/-- A step of the machine on integers, with its reply. -/
def next (acc : Int) : Arithmetic → Int × Reply
  | set a => (a.hao, .done)
  | add form a => form.settle .add acc (acc + a.hao)
  | sub form a => form.settle .subtract acc (acc - a.hao)
  | neg => Form.plain.settle .negate acc (-acc)
  | abs => Form.plain.settle .negate acc |acc|

/-- The number after each step of a run of the machine, with the reply to that step. -/
def reference (acc : Int) : List Arithmetic → List (Int × Reply)
  | [] => []
  | op :: rest => op.next acc :: reference (op.next acc).1 rest

end Arithmetic

/-! ## One step -/

namespace Amount

theorem abs_eq_fitting (a : Amount) : a.abs = fitting .negate |a.hao| := by
  unfold Amount.abs
  split
  · next h =>
    rw [isNegative, decide_eq_true_eq] at h
    rw [neg, abs_of_neg h]
  · next h =>
    rw [isNegative, decide_eq_true_eq, Int.not_lt] at h
    rw [abs_of_nonneg h, fitting, ofHao?_eq_some_iff.mpr rfl]

end Amount

namespace Session

/-- What the machine on integers has of a session and a reply. -/
def observed (next : Session × Reply) : Int × Reply := (next.1.current.hao, next.2)

theorem settle_eq (form : Form) (o : Overflow) (acc n : Int) :
    form.settle o acc n = match Amount.ofHao? n with
      | some a => (a.hao, form.accepted a)
      | none => (acc, form.refused o) := by
  have h : Amount.ofHao? n = if h : Form.InRange n then some ⟨n, h.1, h.2⟩ else none := rfl
  rw [h, Form.settle]
  split <;> rfl

variable {s : Session} {o : Overflow} {n : Int}

/-- An exact result in range is taken, any other is refused with the overflow. -/
theorem observed_calculate (op : Amount → Except Overflow Amount)
    (h : op s.current = Amount.fitting o n) :
    observed ((calculate op).apply s) = Form.plain.settle o s.current.hao n := by
  rw [settle_eq, apply_calculate, apply_take, h, Amount.fitting]
  cases Amount.ofHao? n <;> rfl

/-- In place an amount is left as it was by an overflow. -/
theorem observed_update (op : Amount → Except Overflow Amount)
    (h : op s.current = Amount.fitting o n) :
    observed ((update (Amount.assign op)).apply s) = Form.assigning.settle o s.current.hao n := by
  rw [settle_eq, apply_update, Amount.apply_assign, h, Amount.fitting]
  cases Amount.ofHao? n <;> rfl

/-- The checked forms take and leave the same results, and say so in another way. -/
theorem observed_takeChecked (o : Overflow) (n : Int) (s : Session) :
    observed ((takeChecked (Amount.ofHao? n)).apply s) =
      Form.checked.settle o s.current.hao n := by
  rw [settle_eq, apply_takeChecked]
  cases Amount.ofHao? n <;> rfl

/-- An arithmetic step of a session does what the machine on integers does. -/
theorem observed_step_toStep (s : Session) (op : Arithmetic) :
    observed (s.step op.toStep) = op.next s.current.hao := by
  cases op with
  | set a => rfl
  | add form a =>
    cases form with
    | plain => exact observed_calculate (·.add a) rfl
    | assigning => exact observed_update (·.add a) rfl
    | checked => exact observed_takeChecked .add (s.current.hao + a.hao) s
  | sub form a =>
    cases form with
    | plain => exact observed_calculate (·.sub a) rfl
    | assigning => exact observed_update (·.sub a) rfl
    | checked => exact observed_takeChecked .subtract (s.current.hao - a.hao) s
  | neg => exact observed_calculate Amount.neg rfl
  | abs => exact observed_calculate Amount.abs s.current.abs_eq_fitting

/-- So does a whole run. -/
theorem observed_run_toStep (s : Session) (ops : List Arithmetic) :
    (s.run (ops.map Arithmetic.toStep)).map observed =
      Arithmetic.reference s.current.hao ops := by
  induction ops generalizing s with
  | nil => rfl
  | cons op rest ih =>
    have hs := observed_step_toStep s op
    have hcur : (s.step op.toStep).1.current.hao = (op.next s.current.hao).1 :=
      congrArg Prod.fst hs
    simp only [List.map_cons, run, Arithmetic.reference, hs, ih, hcur]

end Session

/-! ## Forms -/

/-- The step in the plain form, where it is a sum or a difference. -/
def Step.plainForm : Step → Step
  | addAssign a | checkedAdd a => add a
  | subAssign a | checkedSub a => sub a
  | st => st

namespace Session

/-- A checked form leaves the session as the plain one does. -/
theorem fst_takeChecked {s : Session} {o : Overflow} {n : Int}
    (op : Amount → Except Overflow Amount) (h : op s.current = Amount.fitting o n) :
    ((calculate op).apply s).1 = ((takeChecked (Amount.ofHao? n)).apply s).1 := by
  rw [apply_calculate, apply_take, apply_takeChecked, h, Amount.fitting]
  cases Amount.ofHao? n <;> rfl

theorem step_plainForm (s : Session) (st : Step) : (s.step st.plainForm).1 = (s.step st).1 := by
  cases st with
  | addAssign a => exact congrArg Prod.fst (apply_update_assign (·.add a) s).symm
  | subAssign a => exact congrArg Prod.fst (apply_update_assign (·.sub a) s).symm
  | checkedAdd a => exact fst_takeChecked (·.add a) rfl
  | checkedSub a => exact fst_takeChecked (·.sub a) rfl
  | _ => rfl

theorem run_plainForm (s : Session) (steps : List Step) :
    (s.run (steps.map Step.plainForm)).map (·.1) = (s.run steps).map (·.1) := by
  induction steps generalizing s with
  | nil => rfl
  | cons st rest ih => simp only [List.map_cons, run, step_plainForm, ih]

/-- On the arithmetic steps a session is the machine on the unbounded integers: after every step of
a run it has the machine's number, and it replies what the machine replies. And whether sums and
differences are asked for plainly, by assigning or checked, the sessions of a run are the same. -/
theorem run_refines_exact (s : Session) :
    (∀ ops : List Arithmetic, (s.run (ops.map Arithmetic.toStep)).map observed =
      Arithmetic.reference s.current.hao ops) ∧
    ∀ steps steps' : List Step, steps.map Step.plainForm = steps'.map Step.plainForm →
      (s.run steps).map (·.1) = (s.run steps').map (·.1) := by
  constructor
  · exact s.observed_run_toStep
  · intro steps steps' h
    rw [← run_plainForm, h, run_plainForm]

/-- Below the least amount nothing is left, whichever way it is asked for. -/
theorem run_refines_exact_least :
    (run ⟨.least, .coin, #[]⟩ [.abs, .subAssign .oneCoin, .checkedSub .oneCoin]).map observed =
      [(-2 ^ 63, .failed (.overflow .negate)), (-2 ^ 63, .failed (.overflow .subtract)),
        (-2 ^ 63, .absent)] ∧
    [Step.subAssign .oneCoin, .neg].map Step.plainForm =
      [Step.checkedSub .oneCoin, .neg].map Step.plainForm ∧
    (run ⟨.least, .coin, #[]⟩ [.subAssign .oneCoin, .neg]).map (·.1) =
      (run ⟨.least, .coin, #[]⟩ [.checkedSub .oneCoin, .neg]).map (·.1) := by
  refine ⟨?_, rfl, (run_refines_exact _).2 _ _ rfl⟩
  exact (run_refines_exact ⟨.least, .coin, #[]⟩).1
    [.abs, .sub .assigning .oneCoin, .sub .checked .oneCoin]

end Session

end Coinage
