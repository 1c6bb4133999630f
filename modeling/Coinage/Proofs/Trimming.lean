import Coinage.Text.Blank
import Mathlib.Data.List.TakeWhile

/-!
# Trimming

Blanks around a text that neither starts nor ends with one are what trimming takes away, and all of
it. `Unpadded` says so without the trimming itself.

Results.

* `trim_surrounded`: the text comes back from between blanks.
* `unpadded_iff`: trimming finds the only text between blanks.
-/
namespace Coinage.Text

variable {blanks text : List Char}

def AllBlank (text : List Char) : Prop := ∀ c ∈ text, isBlank c = true

instance (text : List Char) : Decidable (AllBlank text) :=
  List.decidableBAll _ text

/-- Neither empty nor with a blank at an end. -/
structure Trimmed (text : List Char) : Prop where
  head : text.head?.any (!isBlank ·) = true
  last : text.getLast?.any (!isBlank ·) = true

instance (text : List Char) : Decidable (Trimmed text) :=
  decidable_of_iff (text.head?.any (!isBlank ·) = true ∧ text.getLast?.any (!isBlank ·) = true)
    ⟨fun h => ⟨h.1, h.2⟩, fun h => ⟨h.head, h.last⟩⟩

theorem trimStart_append (h : AllBlank blanks) : trimStart (blanks ++ text) = trimStart text :=
  List.dropWhile_append_of_pos h

theorem trimStart_of_head (h : text.head?.any (!isBlank ·) = true) : trimStart text = text := by
  cases text with
  | nil => rfl
  | cons c rest => exact List.dropWhile_cons_of_neg (by simpa using h)

theorem trimEnd_append (h : AllBlank blanks) : trimEnd (text ++ blanks) = trimEnd text := by
  have hr : AllBlank blanks.reverse := fun c hc => h c (List.mem_reverse.mp hc)
  rw [trimEnd, List.reverse_append, trimStart_append hr, trimEnd]

theorem trimEnd_of_last (h : text.getLast?.any (!isBlank ·) = true) : trimEnd text = text := by
  rw [trimEnd, trimStart_of_head (by rwa [List.head?_reverse]), List.reverse_reverse]

/-- What is taken away at the start is blank. -/
theorem exists_eq_append_trimStart (text : List Char) :
    ∃ blanks, AllBlank blanks ∧ text = blanks ++ trimStart text :=
  ⟨text.takeWhile isBlank, fun _ hc => List.mem_takeWhile_imp hc,
    List.takeWhile_append_dropWhile.symm⟩

/-- What is taken away at the end is blank. -/
theorem exists_eq_trimEnd_append (text : List Char) :
    ∃ blanks, AllBlank blanks ∧ text = trimEnd text ++ blanks := by
  obtain ⟨blanks, hb, e⟩ := exists_eq_append_trimStart text.reverse
  refine ⟨blanks.reverse, fun c hc => hb c (List.mem_reverse.mp hc), ?_⟩
  rw [trimEnd, ← List.reverse_append, ← e, List.reverse_reverse]

theorem head_trimStart {c : Char} (h : c ∈ (trimStart text).head?) : isBlank c = false := by
  have stopped := List.head?_dropWhile_not isBlank text
  rw [Option.mem_def, trimStart] at h
  rwa [h] at stopped

theorem last_trimEnd {c : Char} (h : c ∈ (trimEnd text).getLast?) : isBlank c = false := by
  rw [trimEnd, List.getLast?_reverse] at h
  exact head_trimStart h

theorem head_append (h : text.head?.any (!isBlank ·) = true) (after : List Char) :
    (text ++ after).head?.any (!isBlank ·) = true := by
  cases text with
  | nil => exact absurd h (by decide)
  | cons c rest => exact h

theorem last_append (before : List Char) (h : text.getLast?.any (!isBlank ·) = true) :
    (before ++ text).getLast?.any (!isBlank ·) = true := by
  rw [← List.head?_reverse] at h ⊢
  rw [List.reverse_append]
  exact head_append h _

/-- A text comes back from between blanks. -/
theorem trim_surrounded {before after : List Char} (hb : AllBlank before) (ha : AllBlank after)
    (ht : Trimmed text) : trim (before ++ text ++ after) = text := by
  rw [trim, List.append_assoc, trimStart_append hb, trimStart_of_head (head_append ht.head _),
    trimEnd_append ha, trimEnd_of_last ht.last]

/-! ## Between blanks -/

/-- The text is what the input has between blanks, and has none at its own ends. -/
structure Unpadded (input text : List Char) : Prop where
  between : ∃ before after, AllBlank before ∧ AllBlank after ∧ input = before ++ text ++ after
  head : ∀ c ∈ text.head?, isBlank c = false
  last : ∀ c ∈ text.getLast?, isBlank c = false

theorem unpadded_trim (input : List Char) : Unpadded input (trim input) := by
  obtain ⟨before, hb, es⟩ := exists_eq_append_trimStart input
  obtain ⟨after, ha, ee⟩ := exists_eq_trimEnd_append (trimStart input)
  refine ⟨⟨before, after, hb, ha, ?_⟩, ?_, fun c hc => last_trimEnd hc⟩
  · rw [trim, List.append_assoc, ← ee, ← es]
  · -- the end is taken away behind the first character
    intro c hc
    have first : c ∈ (trimStart input).head? := by
      rw [trim, Option.mem_def] at hc
      rw [ee, Option.mem_def, List.head?_append, hc]
      rfl
    exact head_trimStart first

/-- Only one text lies between blanks, and trimming finds it. -/
theorem unpadded_iff {input : List Char} : Unpadded input text ↔ text = trim input := by
  constructor
  · rintro ⟨⟨before, after, hb, ha, rfl⟩, head, last⟩
    cases text with
    | nil =>
      have hall : AllBlank (before ++ after) := by
        intro c hc
        exact (List.mem_append.mp hc).elim (hb c) (ha c)
      rw [List.append_nil, trim, trimStart, List.dropWhile_eq_nil_iff.mpr hall]
      rfl
    | cons c rest =>
      have ends : Trimmed (c :: rest) := by
        refine ⟨by simpa using head, ?_⟩
        rw [List.getLast?_eq_some_getLast (List.cons_ne_nil _ _)] at last ⊢
        simpa using last
      exact (trim_surrounded hb ha ends).symm
  · rintro rfl
    exact unpadded_trim input

end Coinage.Text
