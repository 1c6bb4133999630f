import Coinage.Denomination.Reading
import Coinage.Proofs.Numerals32
import Coinage.Proofs.Trimming

/-!
# Reading undoes labelling

A label is one of six names, or a power of ten between `1e` and the symbol of the coin. No name
starts with the digit one, so the two kinds do not meet; and a label neither starts nor ends with a
blank, so trimming leaves it whole.

Results.

* `label_cases`: the two kinds of labels.
* `exponentPart?_eq_some_iff`: what stands in the middle of a power of ten.
* `parse_of_name`, `parse_of_power`, `parse_of_unknown`: the parser by cases.
* `parse_label`: a label between blanks is read as its own denomination, and no two denominations
  share a label.
-/
namespace Coinage

namespace Denomination

open Text

/-! ## Named denominations -/

theorem ofName?_named : ∀ entry ∈ named, ofName? entry.2 = some entry.1 := by
  decide

theorem trimmed_named : ∀ entry ∈ named, Trimmed entry.2.toList := by
  decide

/-- No name starts like a power of ten. -/
theorem head?_spellings : ∀ entry ∈ spellings, entry.2.toList.head? ≠ some '1' := by
  decide

theorem label_cases (u : Denomination) :
    (∃ entry ∈ named, entry.1 = u ∧ entry.2 = u.label) ∨
      u.label.toList =
        "1e".toList ++ (Decimal.integer u.exponent.value ++ [' ']) ++ "OMC".toList := by
  unfold label
  split
  next name h =>
    obtain ⟨before, after, e, -⟩ := List.lookup_eq_some_iff.mp h
    exact .inl ⟨(u, name), by rw [e]; simp, rfl, rfl⟩
  next h =>
    right
    simp [coinSymbol]

/-! ## Powers of ten -/

/-- What has the ends of a power of ten, and something that is not blank between them. -/
theorem exponentPart?_eq_some_iff {text numeral : List Char} :
    exponentPart? text = some numeral ↔
      ∃ middle, text = "1e".toList ++ middle ++ "OMC".toList ∧ trimEnd middle = numeral ∧
        numeral ≠ [] := by
  unfold exponentPart?
  simp only [Option.bind_eq_bind, Option.bind_eq_some_iff, List.isPrefixOf?_eq_some_iff_append_eq,
    List.isSuffixOf?_eq_some_iff_append_eq, Option.ite_none_left_eq_some, Option.some.injEq,
    List.isEmpty_iff]
  constructor
  · rintro ⟨afterPower, rfl, middle, rfl, hne, rfl⟩
    exact ⟨middle, (List.append_assoc ..).symm, rfl, hne⟩
  · rintro ⟨middle, rfl, rfl, hne⟩
    exact ⟨_, (List.append_assoc ..).symm, middle, rfl, hne, rfl⟩

/-- Blanks behind the numeral are dropped. -/
theorem exponentPart?_power {numeral blanks : List Char}
    (hn : numeral.getLast?.any (!isBlank ·) = true) (hb : AllBlank blanks) :
    exponentPart? ("1e".toList ++ (numeral ++ blanks) ++ "OMC".toList) = some numeral := by
  have ht : trimEnd (numeral ++ blanks) = numeral := by
    rw [trimEnd_append hb, trimEnd_of_last hn]
  have hne : numeral ≠ [] := by
    rintro rfl
    exact absurd hn (by decide)
  exact exponentPart?_eq_some_iff.mpr ⟨_, rfl, ht, hne⟩

/-- No name is in the form of a power of ten. -/
theorem ofName?_of_exponentPart? {text numeral : List Char}
    (h : exponentPart? text = some numeral) : ofName? (String.ofList text) = none := by
  obtain ⟨middle, ht, -⟩ := exponentPart?_eq_some_iff.mp h
  have hf : spellings.find? (fun entry => entry.2 = String.ofList text) = none := by
    rw [List.find?_eq_none]
    intro entry he hn
    refine head?_spellings entry he ?_
    rw [of_decide_eq_true hn, String.toList_ofList, ht]
    rfl
  rw [ofName?, hf]
  rfl

theorem isBlank_of_isDigit {c : Char} (h : c.isDigit = true) : isBlank c = false := by
  have := Decimal.isDigit_iff.mp h
  simp only [isBlank, blankRanges, List.any_cons, List.any_nil, Bool.or_false, Bool.or_eq_false_iff,
    Bool.and_eq_false_iff, decide_eq_false_iff_not]
  omega

theorem row_last {row : List Char} (h : Decimal.IsRow row) (hne : row ≠ []) :
    row.getLast?.any (!isBlank ·) = true := by
  have hd := h _ (List.getLast_mem hne)
  simp [List.getLast?_eq_some_getLast hne, isBlank_of_isDigit hd]

theorem trimmed_integer (n : Int) : Trimmed (Decimal.integer n) := by
  obtain ⟨c, rest, e⟩ := List.exists_cons_of_ne_nil (Nat.toDigits_ne_nil (n := n.natAbs) (b := 10))
  have hrow := Decimal.isRow_toDigits n.natAbs
  have hlast := row_last hrow Nat.toDigits_ne_nil
  have hhead : (Nat.toDigits 10 n.natAbs).head?.any (!isBlank ·) = true := by
    rw [e, List.head?_cons, Option.any_some, isBlank_of_isDigit (hrow c (by rw [e]; simp))]
    rfl
  unfold Decimal.integer
  split
  · exact ⟨rfl, last_append ['-'] hlast⟩
  · exact ⟨hhead, hlast⟩

/-! ## The parser by cases -/

section Parse

variable {input : String} {u : Denomination} {numeral : List Char}

theorem parse_of_name (h : ofName? (String.ofList (trim input.toList)) = some u) :
    parse input = .silent (.ok u) := by
  unfold parse
  simp only [h]

theorem parse_of_power (h : exponentPart? (trim input.toList) = some numeral) :
    parse input = .silent (match Integer32.read numeral with
      | .ok exponent => .ok ⟨exponent⟩
      | .error cause => .error (.malformedInteger cause)) := by
  unfold parse
  cases hr : Integer32.read numeral <;> simp only [ofName?_of_exponentPart? h, h, hr]

theorem parse_of_unknown (hn : ofName? (String.ofList (trim input.toList)) = none)
    (hp : exponentPart? (trim input.toList) = none) :
    parse input =
      .noting ("Unrecognized amount unit " ++ String.ofList (quoted (trim input.toList)))
        (.error (.badArgument ("Unknown units: " ++ String.ofList (trim input.toList)))) := by
  unfold parse
  simp only [hn, hp]

end Parse

/-! ## Labels -/

theorem trimmed_label (u : Denomination) : Trimmed u.label.toList := by
  rcases label_cases u with ⟨entry, he, -, hl⟩ | hl
  · rw [← hl]
    exact trimmed_named entry he
  · rw [hl]
    exact ⟨rfl, last_append ('1' :: 'e' :: (Decimal.integer u.exponent.value ++ [' '])) rfl⟩

theorem parse_surrounded_label (u : Denomination) (before after : String)
    (hb : AllBlank before.toList) (ha : AllBlank after.toList) :
    parse (before ++ u.label ++ after) = .silent (.ok u) := by
  have ht : trim (before ++ u.label ++ after).toList = u.label.toList := by
    rw [String.toList_append, String.toList_append]
    exact trim_surrounded hb ha (trimmed_label u)
  rcases label_cases u with ⟨entry, he, rfl, hl⟩ | hl
  · refine parse_of_name ?_
    rw [ht, String.ofList_toList, ← hl]
    exact ofName?_named entry he
  · have hp : exponentPart? u.label.toList = some (Decimal.integer u.exponent.value) := by
      rw [hl]
      exact exponentPart?_power (trimmed_integer _).last (by decide)
    rw [parse_of_power (ht ▸ hp), Integer32.read_integer]

theorem label_injective {u v : Denomination} (h : u.label = v.label) : u = v := by
  have hu := parse_surrounded_label u "" "" (by decide) (by decide)
  have hv := parse_surrounded_label v "" "" (by decide) (by decide)
  rw [h, hv] at hu
  simpa [Logged.silent] using hu.symm

/-- A denomination is read from its label, which is also its text, between blanks of any kind, and
no two denominations share a label. -/
theorem parse_label :
    (∀ (u : Denomination) (before after : String),
      AllBlank before.toList → AllBlank after.toList → ∀ text ∈ [u.label, u.display],
        parse (before ++ text ++ after) = .silent (.ok u) ∧
          ofString (before ++ text ++ after) = .ok u) ∧
    Function.Injective label := by
  constructor
  · intro u before after hb ha text ht
    have hp := parse_surrounded_label u before after hb ha
    obtain rfl : text = u.label := by simpa [display] using ht
    exact ⟨hp, by rw [ofString, hp]; rfl⟩
  · intro u v h
    exact label_injective h

theorem parse_label_least : parse " \t1e-2147483648 OMC\u3000" =
    .silent (.ok ⟨-2147483648, by decide, by decide⟩) :=
  (parse_label.1 ⟨-2147483648, by decide, by decide⟩ " \t" "\u3000" (by decide) (by decide)
    "1e-2147483648 OMC" (by decide)).1

end Denomination

end Coinage
