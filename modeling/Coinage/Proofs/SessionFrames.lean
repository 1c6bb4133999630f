import Coinage.Session

/-!
# What a step leaves alone

Every step of a session has its own part of the state: the current amount, the denomination or the
stack. It changes nothing else, and a question changes nothing at all. A step that fails takes back
nothing that it has stored, but no step stores anything before it can fail for the last time, also
where it works in place. So questions and failed steps can be deleted from a run, any of them,
without a trace in the rest of it.

Results.

* `did_step`: what a step can have done, by one case analysis over the steps.
* `run_of_thins`: a run without some of its invisible steps is the rest of the run.
* `invisible_steps`: both as one statement.
-/
namespace Coinage

/-- A part of the state of a session. -/
inductive Part where
  | current
  | unit
  | stack

/-- The parts that a step may change. -/
def Step.parts : Step → List Part
  | set _ | enter .. | add _ | sub _ | addAssign _ | subAssign _ | checkedAdd _ | checkedSub _
  | neg | abs | scale _ | reload _ | sum => [.current]
  | readUnit _ | setUnit _ => [.unit]
  | push | sort => [.stack]
  | format | display | toUnit => []
  | clear => [.current, .unit, .stack]

/-- A step that only asks for something. -/
def Step.isQuestion : Step → Bool
  | format | display | toUnit => true
  | _ => false

/-- A reply to a step that failed, or to a checked operation without a result. -/
def Reply.isFailure : Reply → Bool
  | failed _ | absent => true
  | _ => false

namespace Session

/-- The two sessions agree in all other parts. -/
structure AgreesOutside (parts : List Part) (s t : Session) : Prop where
  current : .current ∉ parts → t.current = s.current
  unit : .unit ∉ parts → t.unit = s.unit
  stack : .stack ∉ parts → t.stack = s.stack

variable {s : Session} {st : Step} {next : Session × Reply}

theorem AgreesOutside.refl (parts : List Part) (s : Session) : AgreesOutside parts s s :=
  ⟨fun _ => rfl, fun _ => rfl, fun _ => rfl⟩

theorem agreesOutside_current (s : Session) (a : Amount) :
    AgreesOutside [.current] s { s with current := a } :=
  ⟨fun h => absurd (List.mem_singleton_self _) h, fun _ => rfl, fun _ => rfl⟩

theorem agreesOutside_unit (s : Session) (u : Denomination) :
    AgreesOutside [.unit] s { s with unit := u } :=
  ⟨fun _ => rfl, fun h => absurd (List.mem_singleton_self _) h, fun _ => rfl⟩

theorem agreesOutside_stack (s : Session) (stack : Array Amount) :
    AgreesOutside [.stack] s { s with stack := stack } :=
  ⟨fun _ => rfl, fun _ => rfl, fun h => absurd (List.mem_singleton_self _) h⟩

/-! ## Actions -/

/-- What was done lies in some parts of the state, and a reply of failure goes with nothing done. -/
structure Did (parts : List Part) (s : Session) (next : Session × Reply) : Prop where
  agreesOutside : AgreesOutside parts s next.1
  eq_of_isFailure : next.2.isFailure = true → next.1 = s

theorem did_nothing (parts : List Part) (s : Session) (reply : Reply) :
    Did parts s (s, reply) :=
  ⟨.refl parts s, fun _ => rfl⟩

/-- An action that first looks at the session does what it goes on with. -/
theorem did_get_bind {parts : List Part} {f : Session → Action} (h : Did parts s ((f s).apply s)) :
    Did parts s (Action.apply (get >>= f) s) := by
  rwa [Action.apply_get_bind]

theorem did_take (outcome : Except Failure Amount) (s : Session) :
    Did [.current] s ((take outcome).apply s) := by
  rw [apply_take]
  cases outcome with
  | ok a => exact ⟨agreesOutside_current s a, nofun⟩
  | error why => exact did_nothing _ s _

/-- An assignment that overflows leaves the amount that it found. -/
theorem did_update_assign (op : Amount → Except Overflow Amount) (s : Session) :
    Did [.current] s ((update (Amount.assign op)).apply s) := by
  rw [apply_update, Amount.apply_assign]
  cases op s.current with
  | ok a => exact ⟨agreesOutside_current s a, nofun⟩
  | error o => exact did_nothing _ s _

theorem did_calculate (op : Amount → Except Overflow Amount) (s : Session) :
    Did [.current] s ((calculate op).apply s) :=
  did_get_bind (did_take _ s)

theorem did_enter (basis : Basis) (x : Binary64) (s : Session) :
    Did [.current] s ((Session.enter basis x).apply s) :=
  did_take ((Amount.ofNumber basis x).result.mapError .fault) s

theorem did_takeChecked (result : Option Amount) (s : Session) :
    Did [.current] s ((takeChecked result).apply s) := by
  rw [apply_takeChecked]
  cases result with
  | some a => exact ⟨agreesOutside_current s a, nofun⟩
  | none => exact did_nothing _ s _

theorem did_takeUnit (outcome : Except Failure Denomination) (s : Session) :
    Did [.unit] s ((takeUnit outcome).apply s) := by
  rw [apply_takeUnit]
  cases outcome with
  | ok u => exact ⟨agreesOutside_unit s u, nofun⟩
  | error why => exact did_nothing _ s _

/-! ## One step -/

/-- A step changes nothing outside its own part, and nothing at all if it fails. -/
theorem did_step (s : Session) (st : Step) : Did st.parts s (s.step st) := by
  cases st with
  | set a => exact did_take (.ok a) s
  | enter basis x => exact did_enter basis x s
  | add a => exact did_calculate (·.add a) s
  | sub a => exact did_calculate (·.sub a) s
  | neg => exact did_calculate Amount.neg s
  | abs => exact did_calculate Amount.abs s
  | scale x => exact did_get_bind (did_take _ s)
  | reload basis => exact did_get_bind (did_enter basis (s.shown basis) s)
  | sum => exact did_get_bind (did_take _ s)
  | addAssign a => exact did_update_assign (·.add a) s
  | subAssign a => exact did_update_assign (·.sub a) s
  | checkedAdd | checkedSub => exact did_get_bind (did_takeChecked _ s)
  | readUnit name => exact did_takeUnit ((Denomination.parse name).result.mapError .fault) s
  | setUnit u => exact did_takeUnit (.ok u) s
  | push | sort => exact ⟨agreesOutside_stack s _, nofun⟩
  | format | display | toUnit => exact ⟨.refl _ s, nofun⟩
  | clear =>
    refine ⟨⟨?_, ?_, ?_⟩, nofun⟩
    all_goals
      intro h
      exact absurd (by simp [Step.parts]) h

theorem step_agreesOutside (s : Session) (st : Step) : AgreesOutside st.parts s (s.step st).1 :=
  (did_step s st).agreesOutside

theorem step_of_isFailure (h : (s.step st).2.isFailure = true) : (s.step st).1 = s :=
  (did_step s st).eq_of_isFailure h

theorem step_of_isQuestion (h : st.isQuestion = true) : (s.step st).1 = s := by
  cases st with
  | format | display | toUnit => rfl
  | _ => cases h

/-! ## Runs -/

/-- A step of a run, with the session after it and the reply, that failed or only asked. -/
def Invisible (entry : Step × Session × Reply) : Prop :=
  entry.2.2.isFailure = true ∨ entry.1.isQuestion = true

theorem step_of_invisible (h : Invisible (st, s.step st)) : (s.step st).1 = s :=
  h.elim step_of_isFailure step_of_isQuestion

end Session

/-- The second list is the first without some of the elements for which `p` holds. -/
inductive Thins {α : Type} (p : α → Prop) : List α → List α → Prop where
  | nil : Thins p [] []
  | keep (x : α) {xs ys : List α} (rest : Thins p xs ys) : Thins p (x :: xs) (x :: ys)
  | delete {x : α} {xs ys : List α} (allowed : p x) (rest : Thins p xs ys) : Thins p (x :: xs) ys

namespace Session

/-- What is left of a run without some of its invisible steps is a run. -/
theorem run_of_thins {s : Session} {steps : List Step} {kept : List (Step × Session × Reply)}
    (h : Thins Invisible (steps.zip (s.run steps)) kept) :
    s.run (kept.map (·.1)) = kept.map (·.2) := by
  induction steps generalizing s kept with
  | nil =>
    cases h
    rfl
  | cons st rest ih =>
    rw [run, List.zip_cons_cons] at h
    cases h with
    | keep _ later => simp only [List.map_cons, run, ih later]
    | delete allowed later =>
      rw [step_of_invisible allowed] at later
      exact ih later

/-- A step that fails and a question leave the session as it was. So any of them can be deleted from
a run, and all other steps have the same replies and lead to the same sessions. Every other step
changes the session in its own part only. -/
theorem invisible_steps :
    (∀ (s : Session) (st : Step), (s.step st).2.isFailure = true ∨ st.isQuestion = true →
      (s.step st).1 = s) ∧
    (∀ (s : Session) (steps : List Step) (kept : List (Step × Session × Reply)),
      Thins Invisible (steps.zip (s.run steps)) kept → s.run (kept.map (·.1)) = kept.map (·.2)) ∧
    ∀ (s : Session) (st : Step), AgreesOutside st.parts s (s.step st).1 := by
  refine ⟨?_, ?_, step_agreesOutside⟩
  · intro s st h
    exact step_of_invisible h
  · intro s steps kept h
    exact run_of_thins h

/-- Of five steps three fail or only ask, and the other two are a run of their own. -/
theorem invisible_steps_greatest :
    ((step ⟨.greatest, .coin, #[]⟩ (.add .oneCoin)).2.isFailure = true ∧
      (step ⟨.greatest, .coin, #[]⟩ (.add .oneCoin)).1 = ⟨.greatest, .coin, #[]⟩) ∧
    Thins Invisible
      (List.zip [.set .greatest, .checkedAdd .oneCoin, .readUnit "1ex OMC", .format, .push]
        (start.run [.set .greatest, .checkedAdd .oneCoin, .readUnit "1ex OMC", .format, .push]))
      [(.set .greatest, ⟨.greatest, .coin, #[]⟩, .done),
        (.push, ⟨.greatest, .coin, #[.greatest]⟩, .size 1)] ∧
    start.run [.set .greatest, .push] =
      [(⟨.greatest, .coin, #[]⟩, .done), (⟨.greatest, .coin, #[.greatest]⟩, .size 1)] := by
  have failed : (step ⟨.greatest, .coin, #[]⟩ (.add .oneCoin)).2.isFailure = true := by decide
  have deletable : Thins Invisible
      (List.zip [.set .greatest, .checkedAdd .oneCoin, .readUnit "1ex OMC", .format, .push]
        (start.run [.set .greatest, .checkedAdd .oneCoin, .readUnit "1ex OMC", .format, .push]))
      [(.set .greatest, ⟨.greatest, .coin, #[]⟩, .done),
        (.push, ⟨.greatest, .coin, #[.greatest]⟩, .size 1)] :=
    .keep _ (.delete (.inl (by decide)) (.delete (.inl (by decide +kernel))
      (.delete (.inr rfl) (.keep _ .nil))))
  exact ⟨⟨failed, invisible_steps.1 _ _ (.inl failed)⟩, deletable,
    invisible_steps.2.1 _ _ _ deletable⟩

end Session

end Coinage
