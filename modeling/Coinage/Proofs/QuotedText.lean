import Coinage.Text.Quoted
import Mathlib.Data.List.Basic
import Mathlib.Tactic.Common

/-!
# Quoted text can be taken apart again

A character is written in one of three ways, and each way is undone without looking at what comes
before or behind: escapes start with a backslash, a backslash of the text is escaped itself, and the
digits of a code point end at a brace. So the escapes are undone exactly. Nor can a text end its own
quotes, since each quote in it comes behind a backslash that is read first, or break its line, since
no control character stands for itself.

Results.

* `escape_cases`: the three ways to write a character.
* `decode_encode`: undoing the escapes.
* `quotedPart?_quoted`: the quotes around a written text are the first two that are no escapes.
* `not_isControl_of_mem_quoted`: there are no control characters in a quoted text.
* `Quotes.unique`: a line quotes one text at most.
-/
namespace Coinage.Text

variable {c : Char} {text before after rest : List Char}

/-! ## Finding the quoted part -/

/-- What stands in front of the next quote that is not escaped, and what follows that quote. With
`escaped`, the first character comes behind a backslash. -/
def upToQuote (escaped : Bool) : List Char → Option (List Char × List Char)
  | [] => none
  | c :: rest =>
    if !escaped && c = '\"' then some ([], rest)
    else (upToQuote (!escaped && c = '\\') rest).map fun (inside, after) => (c :: inside, after)

/-- What stands between the first quote and the one that ends it, and what follows. -/
def quotedPart? (line : List Char) : Option (List Char × List Char) :=
  match line.dropWhile (· ≠ '\"') with
  | [] => none
  | _ :: rest => upToQuote false rest

/-- The line has no control character in it; its quoted part, which `after` follows, is a written
form of the text. -/
structure Quotes (line text after : List Char) : Prop where
  not_isControl : ∀ c ∈ line, isControl c = false
  decodes : ∃ part, quotedPart? line = some (part, after) ∧ decode part = some text

theorem Quotes.unique {line text other after after' : List Char} (h : Quotes line text after)
    (h' : Quotes line other after') : text = other := by
  obtain ⟨part, found, decodes⟩ := h.decodes
  obtain ⟨part', found', decodes'⟩ := h'.decodes
  rw [found] at found'
  cases found'
  rw [decodes] at decodes'
  exact Option.some_inj.mp decodes'

/-! ## Hexadecimal digits -/

theorem mem_toDigits {n : Nat} (h : c ∈ Nat.toDigits 16 n) : ∃ d < 16, c = Nat.digitChar d := by
  induction n using Nat.strongRecOn with
  | _ n ih =>
    rw [Nat.toDigits_eq_if (by omega)] at h
    split at h
    · exact ⟨n, by omega, List.mem_singleton.mp h⟩
    · rcases List.mem_append.mp h with h | h
      · exact ih (n / 16) (by omega) h
      · exact ⟨n % 16, by omega, List.mem_singleton.mp h⟩

theorem hexDigit?_digitChar {d : Nat} (h : d < 16) : hexDigit? (Nat.digitChar d) = some d :=
  (by decide : ∀ i : Fin 16, hexDigit? (Nat.digitChar i) = some i.val) ⟨d, h⟩

theorem decodeFrom_digit (n : Nat) {d : Nat} (h : d < 16) (rest : List Char) :
    decodeFrom (some n) (Nat.digitChar d :: rest) = decodeFrom (some (16 * n + d)) rest := by
  have digit := hexDigit?_digitChar h
  have noBrace : Nat.digitChar d ≠ '\x7d' := by
    intro e
    rw [e] at digit
    cases digit
  rw [decodeFrom, if_neg noBrace, digit]
  rfl

/-- The digits of a code point. -/
theorem decodeFrom_toDigits (n : Nat) (rest : List Char) :
    decodeFrom (some 0) (Nat.toDigits 16 n ++ rest) = decodeFrom (some n) rest := by
  induction n using Nat.strongRecOn generalizing rest with
  | _ n ih =>
    rw [Nat.toDigits_eq_if (by omega)]
    split
    · next h => rw [List.singleton_append, decodeFrom_digit 0 h, Nat.mul_zero, Nat.zero_add]
    · rw [List.append_assoc, ih (n / 16) (by omega), List.singleton_append,
        decodeFrom_digit _ (Nat.mod_lt n (by omega)), Nat.div_add_mod]

/-! ## One character -/

theorem ofShortEscape?_of_shortEscape? {short : Char} (h : shortEscape? c = some short) :
    ofShortEscape? short = some c ∧ isControl short = false := by
  unfold shortEscape? at h
  split at h <;> cases h <;> decide

/-- A character has a short escape, or is a control character and written by its code point, or
stands for itself. -/
theorem escape_cases (c : Char) :
    (∃ short, escape c = ['\\', short] ∧ ofShortEscape? short = some c ∧
      isControl short = false) ∨
    escape c = '\\' :: 'u' :: '\x7b' :: (Nat.toDigits 16 c.toNat ++ ['\x7d']) ∨
    escape c = [c] ∧ c ≠ '\"' ∧ c ≠ '\\' ∧ isControl c = false := by
  cases h : shortEscape? c with
  | some short =>
    exact .inl ⟨short, by rw [escape, h], ofShortEscape?_of_shortEscape? h⟩
  | none =>
    right
    have noQuote : c ≠ '\"' := by
      rintro rfl
      cases h
    have noBackslash : c ≠ '\\' := by
      rintro rfl
      cases h
    cases hc : isControl c with
    | true => exact .inl (by simp [escape, h, hc])
    | false => exact .inr ⟨by simp [escape, h, hc], noQuote, noBackslash, rfl⟩

/-- Any other character than the backslash is its own written form. -/
theorem decodeFrom_cons (h : c ≠ '\\') (rest : List Char) :
    decodeFrom none (c :: rest) = (c :: ·) <$> decodeFrom none rest := by
  rw [decodeFrom.eq_def]
  simp only [if_neg h]

theorem decodeFrom_short {short : Char} (h : ofShortEscape? short = some c) (rest : List Char) :
    decodeFrom none ('\\' :: short :: rest) = (c :: ·) <$> decodeFrom none rest := by
  rw [decodeFrom, if_pos rfl, h]
  · cases decodeFrom none rest <;> rfl
  · -- no short escape looks like the start of a code point
    rintro after rfl
    cases h

theorem decodeFrom_code (c : Char) (rest : List Char) :
    decodeFrom none ('\\' :: 'u' :: '\x7b' :: (Nat.toDigits 16 c.toNat ++ '\x7d' :: rest)) =
      (c :: ·) <$> decodeFrom none rest := by
  rw [decodeFrom, if_pos rfl, decodeFrom_toDigits, decodeFrom, if_pos rfl, Char.ofNat_toNat]

theorem decodeFrom_escape (c : Char) (rest : List Char) :
    decodeFrom none (escape c ++ rest) = (c :: ·) <$> decodeFrom none rest := by
  rcases escape_cases c with ⟨short, e, undone, -⟩ | e | ⟨e, -, noBackslash, -⟩
  · rw [e]
    exact decodeFrom_short undone rest
  · rw [e]
    simpa using decodeFrom_code c rest
  · rw [e]
    exact decodeFrom_cons noBackslash rest

/-! ## Quotes and control characters -/

/-- Neither the marks of quoting nor a control character. -/
def IsHarmless (c : Char) : Prop := c ≠ '\"' ∧ c ≠ '\\' ∧ isControl c = false

instance (c : Char) : Decidable (IsHarmless c) := inferInstanceAs (Decidable (_ ∧ _ ∧ _))

theorem isHarmless_code (c : Char) :
    ∀ d ∈ '\x7b' :: (Nat.toDigits 16 c.toNat ++ ['\x7d']), IsHarmless d := by
  have digit : ∀ i : Fin 16, IsHarmless (Nat.digitChar i) := by decide
  simp only [List.mem_cons, List.mem_append, List.not_mem_nil, or_false]
  rintro d (rfl | h | rfl)
  · decide
  · obtain ⟨i, hi, rfl⟩ := mem_toDigits h
    exact digit ⟨i, hi⟩
  · decide

theorem upToQuote_append {row : List Char} (h : ∀ c ∈ row, IsHarmless c) (rest : List Char) :
    upToQuote false (row ++ rest) =
      (upToQuote false rest).map fun (inside, after) => (row ++ inside, after) := by
  induction row with
  | nil => simp
  | cons c row ih =>
    obtain ⟨⟨noQuote, noBackslash, -⟩, h⟩ := List.forall_mem_cons.mp h
    simp [upToQuote, noQuote, noBackslash, ih h, Function.comp_def]

theorem upToQuote_backslash (c : Char) (rest : List Char) :
    upToQuote false ('\\' :: c :: rest) =
      (upToQuote false rest).map fun (inside, after) => ('\\' :: c :: inside, after) := by
  simp [upToQuote, Function.comp_def]

/-- The written form of a character is passed over as a whole. -/
theorem upToQuote_escape (c : Char) (rest : List Char) :
    upToQuote false (escape c ++ rest) =
      (upToQuote false rest).map fun (inside, after) => (escape c ++ inside, after) := by
  rcases escape_cases c with ⟨short, e, -⟩ | e | ⟨e, harmless⟩
  · rw [e]
    exact upToQuote_backslash short rest
  · rw [e, List.cons_append, List.cons_append, upToQuote_backslash,
      upToQuote_append (isHarmless_code c), Option.map_map]
    rfl
  · rw [e]
    exact upToQuote_append (List.forall_mem_singleton.mpr harmless) rest

theorem not_isControl_of_mem_escape {d : Char} (h : d ∈ escape c) : isControl d = false := by
  rcases escape_cases c with ⟨short, e, -, printable⟩ | e | ⟨e, -, -, printable⟩
  · simp only [e, List.mem_cons, List.not_mem_nil, or_false] at h
    rcases h with rfl | rfl
    · rfl
    · exact printable
  · rw [e, List.mem_cons, List.mem_cons] at h
    rcases h with rfl | rfl | h
    · rfl
    · rfl
    · exact (isHarmless_code c d h).2.2
  · rw [e, List.mem_singleton] at h
    rw [h, printable]

/-! ## Whole texts -/

/-- Undoing the escapes gives the text back. -/
theorem decode_encode (text : List Char) : decode (encode text) = some text := by
  unfold decode encode
  induction text with
  | nil => rfl
  | cons c rest ih => rw [List.flatMap_cons, decodeFrom_escape, ih]; rfl

theorem upToQuote_encode (text after : List Char) :
    upToQuote false (encode text ++ '\"' :: after) = some (encode text, after) := by
  unfold encode
  induction text with
  | nil => rfl
  | cons c rest ih =>
    rw [List.flatMap_cons, List.append_assoc, upToQuote_escape, ih]
    rfl

/-- The quoted part of a line is the written form of the text, whatever that is. -/
theorem quotedPart?_quoted (h : '\"' ∉ before) (text after : List Char) :
    quotedPart? (before ++ quoted text ++ after) = some (encode text, after) := by
  have opening : (before ++ quoted text ++ after).dropWhile (· ≠ '\"') =
      '\"' :: (encode text ++ '\"' :: after) := by
    rw [List.append_assoc, List.dropWhile_append_of_pos]
    · simp [quoted]
    · intro c hc
      exact decide_eq_true fun e => h (e ▸ hc)
  rw [quotedPart?, opening]
  exact upToQuote_encode text after

theorem not_isControl_of_mem_quoted (h : c ∈ quoted text) : isControl c = false := by
  simp only [quoted, encode, List.mem_append, List.mem_cons, List.mem_flatMap, List.not_mem_nil,
    or_false] at h
  rcases h with (rfl | ⟨d, -, h⟩) | rfl
  · rfl
  · exact not_isControl_of_mem_escape h
  · rfl

/-- A text quoted between parts that have no quote and no control character in them. -/
theorem quotes_quoted (hq : '\"' ∉ before) (hb : ∀ c ∈ before, isControl c = false)
    (ha : ∀ c ∈ after, isControl c = false) (text : List Char) :
    Quotes (before ++ quoted text ++ after) text after where
  not_isControl := by
    simp only [List.mem_append]
    rintro c ((h | h) | h)
    · exact hb c h
    · exact not_isControl_of_mem_quoted h
    · exact ha c h
  decodes := ⟨_, quotedPart?_quoted hq text after, decode_encode text⟩

theorem quotes_toList (before after : String) (hq : '\"' ∉ before.toList)
    (hb : before.toList.all (!isControl ·) = true) (ha : after.toList.all (!isControl ·) = true)
    (text : List Char) :
    Quotes (before ++ String.ofList (quoted text) ++ after).toList text after.toList := by
  rw [String.toList_append, String.toList_append, String.toList_ofList]
  exact quotes_quoted hq (by simpa using hb) (by simpa using ha) text

end Coinage.Text
