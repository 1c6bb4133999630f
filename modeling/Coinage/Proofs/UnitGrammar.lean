import Coinage.Proofs.LabelRoundTrip

/-!
# The grammar of denominations

Which texts name a denomination is said by `Spells` without the parser: seven names, or a power of
ten whose numeral denotes an integer of 32 bits. `IsPower` is the wider form that a power of ten is
recognised by, whatever stands in the place of the numeral.

Results.

* `ofName?_eq_some_iff`: the names that are understood are those listed here.
* `spells_iff`: the grammar in terms of what the parser finds in a text.
* `parse_classification`: the parser accepts exactly the grammar; of the other texts those in the
  form of a power of ten give the fault of the numeral, and all the rest are bad arguments.
* `parse_records`, `parse_unrecorded`: bad arguments are recorded, faults of numerals are not.
-/
namespace Coinage.Denomination

open Text Integer32

-- core's powers, whatever else is in scope
attribute [local instance (high)] instPowNat

/-- The names, with their exponents. The micro coin has two. -/
def nameTable : List (String × Int) :=
  [("MOMC", 6), ("kOMC", 3), ("OMC", 0), ("mOMC", -3), ("μOMC", -6), ("uOMC", -6), ("Hao", -8)]

/-- The texts that name a denomination, with its exponent. -/
inductive Spells : List Char → Int → Prop where
  | name {entry : String × Int} (listed : entry ∈ nameTable) : Spells entry.1.toList entry.2
  | power {numeral blanks : List Char} {e : Int} (denotes : IntegerNumeral numeral e)
      (lower : -2 ^ (31 : Nat) ≤ e) (upper : e ≤ 2 ^ (31 : Nat) - 1) (allBlank : AllBlank blanks) :
      Spells ("1e".toList ++ (numeral ++ blanks) ++ "OMC".toList) e

/-- Something that is not blank stands between `1e` and the symbol of the coin. -/
def IsPower (text : List Char) : Prop :=
  ∃ middle, text = "1e".toList ++ middle ++ "OMC".toList ∧ trimEnd middle ≠ []

/-! ## Names -/

theorem ofName?_eq_some_iff {name : String} {u : Denomination} :
    ofName? name = some u ↔ (name, u.exponent.value) ∈ nameTable := by
  have spelled : ∀ entry ∈ spellings, (entry.2, entry.1.exponent.value) ∈ nameTable := by decide
  have listed : ∀ entry ∈ nameTable,
      ∃ other ∈ spellings, other.1.exponent.value = entry.2 ∧ ofName? entry.1 = some other.1 := by
    decide
  constructor
  · intro h
    obtain ⟨entry, hf, rfl⟩ := Option.map_eq_some_iff.mp h
    have hn := List.find?_some hf
    rw [← of_decide_eq_true hn]
    exact spelled entry (List.mem_of_find?_eq_some hf)
  · intro h
    obtain ⟨other, -, he, hn⟩ := listed _ h
    rw [hn, exponent_value_inj.mp he]

/-! ## Powers of ten -/

theorem isPower_iff {text : List Char} :
    IsPower text ↔ ∃ numeral, exponentPart? text = some numeral := by
  simp only [exponentPart?_eq_some_iff]
  constructor
  · rintro ⟨middle, rfl, hne⟩
    exact ⟨_, middle, rfl, rfl, hne⟩
  · rintro ⟨_, middle, rfl, rfl, hne⟩
    exact ⟨middle, rfl, hne⟩

theorem numeral_last {numeral : List Char} {e : Int} (h : IntegerNumeral numeral e) :
    numeral.getLast?.any (!isBlank ·) = true := by
  cases h with
  | unsigned digits ne_nil => exact row_last digits ne_nil
  | plus digits ne_nil => exact last_append ['+'] (row_last digits ne_nil)
  | minus digits ne_nil => exact last_append ['-'] (row_last digits ne_nil)

/-! ## The grammar and the parser -/

/-- Every exponent of the grammar has 32 bits. -/
theorem Spells.exists_exponent {text : List Char} {e : Int} (h : Spells text e) :
    ∃ u : Denomination, u.exponent.value = e := by
  cases h with
  | name listed =>
    have hr : ∀ entry ∈ nameTable,
        -2 ^ (31 : Nat) ≤ entry.2 ∧ entry.2 ≤ 2 ^ (31 : Nat) - 1 := by decide
    exact ⟨⟨⟨_, (hr _ listed).1, (hr _ listed).2⟩⟩, rfl⟩
  | power _ lower upper _ => exact ⟨⟨⟨e, lower, upper⟩⟩, rfl⟩

/-- A text of the grammar is a name, or a power of ten with a numeral that is read. -/
theorem spells_iff {text : List Char} {u : Denomination} :
    Spells text u.exponent.value ↔
      ofName? (String.ofList text) = some u ∨
        ∃ numeral, exponentPart? text = some numeral ∧ read numeral = .ok u.exponent := by
  constructor
  · intro h
    generalize he : u.exponent.value = e at h
    cases h with
    | name listed =>
      left
      rw [ofName?_eq_some_iff, String.ofList_toList, he]
      exact listed
    | @power numeral blanks _ denotes lower upper allBlank =>
      refine .inr ⟨numeral, exponentPart?_power (numeral_last denotes) allBlank, ?_⟩
      rw [read_eq_ok_iff, he]
      exact denotes
  · rintro (h | ⟨numeral, hpart, hread⟩)
    · have hs := Spells.name (ofName?_eq_some_iff.mp h)
      rwa [String.toList_ofList] at hs
    · obtain ⟨middle, rfl, rfl, -⟩ := exponentPart?_eq_some_iff.mp hpart
      obtain ⟨blanks, hb, e⟩ := exists_eq_trimEnd_append middle
      have hs := Spells.power (read_eq_ok_iff.mp hread) u.exponent.lower u.exponent.upper hb
      rwa [← e] at hs

section Parse

variable {input : String} {u : Denomination}

theorem result_parse_of_spells (h : Spells (trim input.toList) u.exponent.value) :
    (parse input).result = .ok u := by
  rcases spells_iff.mp h with hn | ⟨numeral, hp, hread⟩
  · rw [parse_of_name hn, Logged.silent]
  · rw [parse_of_power hp, hread, Logged.silent]

/-- Nothing of the grammar is refused. -/
theorem not_spells_of_result_parse {fault : Fault} (h : (parse input).result = .error fault)
    (e : Int) : ¬ Spells (trim input.toList) e := by
  intro hs
  obtain ⟨u, rfl⟩ := hs.exists_exponent
  rw [result_parse_of_spells hs] at h
  cases h

/-- The three outcomes, and where each can come from. -/
theorem result_parse_cases (input : String) :
    (∃ u : Denomination, (parse input).result = .ok u ∧
        Spells (trim input.toList) u.exponent.value) ∨
      (∃ cause, (parse input).result = .error (.malformedInteger cause)) ∧
        IsPower (trim input.toList) ∨
      (parse input).result =
          .error (.badArgument ("Unknown units: " ++ String.ofList (trim input.toList))) ∧
        ¬ IsPower (trim input.toList) := by
  cases hn : ofName? (String.ofList (trim input.toList)) with
  | some u =>
    rw [parse_of_name hn]
    exact .inl ⟨u, rfl, spells_iff.mpr (.inl hn)⟩
  | none =>
    cases hp : exponentPart? (trim input.toList) with
    | some numeral =>
      rw [parse_of_power hp]
      cases hread : read numeral with
      | ok e => exact .inl ⟨⟨e⟩, rfl, spells_iff.mpr (.inr ⟨numeral, hp, hread⟩)⟩
      | error cause => exact .inr (.inl ⟨⟨cause, rfl⟩, isPower_iff.mpr ⟨numeral, hp⟩⟩)
    | none =>
      rw [parse_of_unknown hn hp]
      exact .inr (.inr ⟨rfl, by simp [isPower_iff, hp]⟩)

/-- There is only one text between the blanks around an input. The input is accepted exactly if this
text spells a denomination, and then as that denomination. Any other text that is in the form of a
power of ten fails with the fault of its numeral, and any that is not is a bad argument which quotes
it. -/
theorem parse_classification (input : String) :
    (∀ text, Unpadded input.toList text ↔ text = trim input.toList) ∧
    (∀ u : Denomination, (parse input).result = .ok u ↔
      Spells (trim input.toList) u.exponent.value) ∧
    ((∃ cause, (parse input).result = .error (.malformedInteger cause)) ↔
      (∀ e, ¬ Spells (trim input.toList) e) ∧ IsPower (trim input.toList)) ∧
    ((parse input).result =
        .error (.badArgument ("Unknown units: " ++ String.ofList (trim input.toList))) ↔
      (∀ e, ¬ Spells (trim input.toList) e) ∧ ¬ IsPower (trim input.toList)) := by
  refine ⟨fun _ => unpadded_iff, ?_⟩
  rcases result_parse_cases input with ⟨v, hv, hs⟩ | ⟨⟨cause, hc⟩, hp⟩ | ⟨hb, hp⟩
  · have accepted (u : Denomination) : (parse input).result = .ok u ↔
        Spells (trim input.toList) u.exponent.value := by
      refine ⟨?_, result_parse_of_spells⟩
      rw [hv]
      rintro ⟨⟩
      exact hs
    have spelled : ¬ ∀ e, ¬ Spells (trim input.toList) e := fun h => h _ hs
    exact ⟨accepted, by simp [hv, spelled], by simp [hv, spelled]⟩
  · have refused := not_spells_of_result_parse hc
    exact ⟨by simp [hc, refused], by simp [hc, refused, hp], by simp [hc, hp]⟩
  · have refused := not_spells_of_result_parse hb
    exact ⟨by simp [hb, refused], by simp [hb, hp], by simp [hb, refused, hp]⟩

/-! ## Records -/

/-- The record of a text in none of the forms. -/
def unrecognized (text : List Char) : String :=
  "Unrecognized amount unit " ++ String.ofList (quoted text)

/-- Only a bad argument is recorded. -/
theorem debug_parse (input : String) : (parse input).debug =
    match (parse input).result with
    | .error (.badArgument _) => [unrecognized (trim input.toList)]
    | _ => [] := by
  cases hn : ofName? (String.ofList (trim input.toList)) with
  | some u => rw [parse_of_name hn, Logged.silent]
  | none =>
    cases hp : exponentPart? (trim input.toList) with
    | some numeral =>
      rw [parse_of_power hp]
      cases read numeral <;> rw [Logged.silent]
    | none =>
      rw [parse_of_unknown hn hp]
      rfl

/-- Success leaves no record. A failure leaves one, which quotes the text, unless the text is in the
form of a power of ten. -/
theorem parse_records (input : String) :
    (∀ u : Denomination, (parse input).result = .ok u → (parse input).debug = []) ∧
    (∀ fault, (parse input).result = .error fault →
      (IsPower (trim input.toList) → (parse input).debug = []) ∧
      (¬ IsPower (trim input.toList) →
        (parse input).debug = [unrecognized (trim input.toList)])) := by
  have debug := debug_parse input
  rcases result_parse_cases input with ⟨v, hv, -⟩ | ⟨⟨cause, hc⟩, hp⟩ | ⟨hb, hp⟩
  · rw [hv] at debug
    simp [hv, debug]
  · rw [hc] at debug
    simp [hc, debug, hp]
  · rw [hb] at debug
    simp [hb, debug, hp]

/-- A coin, a text in the form of a power of ten, and one in none of the forms. -/
theorem parse_records_coin : (parse "OMC").debug = [] ∧
    (IsPower "1ex OMC".toList ∧ (parse "1ex OMC").debug = []) ∧
    (¬ IsPower "XOMC".toList ∧ (parse "XOMC").debug = [unrecognized "XOMC".toList]) := by
  have accepted : (parse "OMC").result = .ok .coin := by decide +kernel
  have malformed : (parse "1ex OMC").result = .error (.malformedInteger .invalidDigit) := by
    decide +kernel
  have unknown : (parse "XOMC").result = .error (.badArgument "Unknown units: XOMC") := by
    decide +kernel
  have power : IsPower "1ex OMC".toList := isPower_iff.mpr ⟨['x'], by decide⟩
  have other : ¬ IsPower "XOMC".toList := by
    have hn : exponentPart? "XOMC".toList = none := by decide
    rw [isPower_iff, hn]
    rintro ⟨_, ⟨⟩⟩
  exact ⟨(parse_records "OMC").1 .coin accepted,
    ⟨power, ((parse_records "1ex OMC").2 _ malformed).1 power⟩,
    ⟨other, ((parse_records "XOMC").2 _ unknown).2 other⟩⟩

/-- The numeral of a power of ten is at fault, and nothing is recorded. -/
theorem parse_unrecorded : ¬∀ (input : String) (fault : Fault),
    (parse input).result = .error fault → (parse input).debug.length = 1 := by
  intro h
  have recorded := h "1ex OMC" (.malformedInteger .invalidDigit) (by decide +kernel)
  exact absurd recorded (by decide +kernel)

end Parse

end Coinage.Denomination
