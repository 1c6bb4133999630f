import Coinage.Proofs.QuotedText
import Coinage.Proofs.UnitGrammar

/-!
# The text in a fault and in its record

A text that names no denomination is recorded in quotes, without the blanks around it, and a bad
argument shows the text that says why in quotes. Both are one line, whatever the text is, and the
text can be got back from the line: no input can end a record early, start another one, or be
mistaken for a different input.

Results.

* `quotes_unrecognized`: the record.
* `refused_texts_recovered`: records and bad arguments, and that equal records are of equal texts.
-/
namespace Coinage

open Text

/-- The record of a text quotes it. -/
theorem Denomination.quotes_unrecognized (text : List Char) :
    Quotes (unrecognized text).toList text [] := by
  have h := quotes_toList "Unrecognized amount unit " "" (by decide) (by decide) (by decide) text
  rw [String.append_empty] at h
  exact h

theorem Fault.quotes_inspect (text : String) :
    Quotes (Fault.badArgument text).inspect.toList text.toList [')'] :=
  quotes_toList "BadArgument(" ")" (by decide) (by decide) (by decide) text.toList

namespace Denomination

/-- The record of a bad argument quotes the text without the blanks around it and ends there, and
the rendering of a bad argument quotes the text in it in front of the closing bracket. Neither has a
control character, whatever is in the text; every character that is no control character, quote or
backslash stands for itself, also where a renderer might escape it because it does not print or
combines with the character before. So two bad arguments have the same records only if they are the
same but for the blanks around them. -/
theorem refused_texts_recovered :
    (∀ input why : String, (parse input).result = .error (.badArgument why) →
      ∃ record, (parse input).debug = [record] ∧
        Quotes record.toList (trim input.toList) []) ∧
    (∀ text : String, Quotes (Fault.badArgument text).inspect.toList text.toList [')']) ∧
    (∀ input other why why' : String, (parse input).result = .error (.badArgument why) →
      (parse other).result = .error (.badArgument why') →
      (parse input).debug = (parse other).debug → trim input.toList = trim other.toList) := by
  have recorded (input why : String) (h : (parse input).result = .error (.badArgument why)) :
      (parse input).debug = [unrecognized (trim input.toList)] := by
    rw [debug_parse, h]
  refine ⟨fun input why h => ?_, Fault.quotes_inspect, fun input other why why' h h' same => ?_⟩
  · exact ⟨_, recorded input why h, quotes_unrecognized _⟩
  · rw [recorded input why h, recorded other why' h', List.singleton_inj] at same
    exact (same ▸ quotes_unrecognized (trim input.toList)).unique (quotes_unrecognized _)

/-- A quote, what looks like an escape, and control characters with a line end between them; and the
same between blanks. -/
theorem refused_texts_recovered_escapes :
    (parse "\"\\u\x7b7\x7d\x07\n\x7f").result =
        .error (.badArgument "Unknown units: \"\\u\x7b7\x7d\x07\n\x7f") ∧
      (parse " \t\"\\u\x7b7\x7d\x07\n\x7f\u0085").result =
        .error (.badArgument "Unknown units: \"\\u\x7b7\x7d\x07\n\x7f") ∧
      (parse "\"\\u\x7b7\x7d\x07\n\x7f").debug =
        ["Unrecognized amount unit \"\\\"\\\\u\x7b7\x7d\\u\x7b7\x7d\\n\\u\x7b7f\x7d\""] ∧
      Quotes "Unrecognized amount unit \"\\\"\\\\u\x7b7\x7d\\u\x7b7\x7d\\n\\u\x7b7f\x7d\"".toList
        (trim "\"\\u\x7b7\x7d\x07\n\x7f".toList) [] ∧
      trim "\"\\u\x7b7\x7d\x07\n\x7f".toList = trim " \t\"\\u\x7b7\x7d\x07\n\x7f\u0085".toList := by
  obtain ⟨records, -, same⟩ := refused_texts_recovered
  have refused : (parse "\"\\u\x7b7\x7d\x07\n\x7f").result =
      .error (.badArgument "Unknown units: \"\\u\x7b7\x7d\x07\n\x7f") := by decide +kernel
  have refused' : (parse " \t\"\\u\x7b7\x7d\x07\n\x7f\u0085").result =
      .error (.badArgument "Unknown units: \"\\u\x7b7\x7d\x07\n\x7f") := by decide +kernel
  have debug : (parse "\"\\u\x7b7\x7d\x07\n\x7f").debug =
      ["Unrecognized amount unit \"\\\"\\\\u\x7b7\x7d\\u\x7b7\x7d\\n\\u\x7b7f\x7d\""] := by
    decide +kernel
  obtain ⟨record, recorded, quotes⟩ := records _ _ refused
  rw [debug, List.singleton_inj] at recorded
  rw [← recorded] at quotes
  exact ⟨refused, refused', debug, quotes, same _ _ _ _ refused refused' (by decide +kernel)⟩

end Denomination

end Coinage
