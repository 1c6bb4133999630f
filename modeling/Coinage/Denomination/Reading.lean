import Coinage.Denomination.Basic
import Coinage.Fault
import Coinage.Logged
import Coinage.Text.Blank

/-!
# Reading denominations

`parse` reads what `label` writes, with blanks around it. Case matters, since `MOMC` and `mOMC`
differ. Beyond the labels it accepts `uOMC` for the micro coin and any numeral of 32 bits in the
form `1e<exponent> OMC`, where the blank before the symbol may be missing or be any other blanks.

A text that is not of that form, or has nothing between its two ends, is a bad argument and is
recorded. A text of that form whose exponent cannot be read gives the fault of the numeral.
-/
namespace Coinage.Denomination

/-- Every name that is understood: the labels, and a spelling of the micro coin in ASCII. -/
def spellings : List (Denomination × String) := named ++ [(micro, "u" ++ coinSymbol)]

/-- The denomination of a name. -/
def ofName? (name : String) : Option Denomination :=
  (spellings.find? fun entry => entry.2 = name).map (·.1)

/-- What stands between `1e` and the symbol of the coin, blanks at its end dropped; none where
nothing is left or the text does not have these two ends. -/
def exponentPart? (text : List Char) : Option (List Char) := do
  let afterPower ← "1e".toList.isPrefixOf? text
  let middle ← coinSymbol.toList.isSuffixOf? afterPower
  let numeral := Text.trimEnd middle
  if numeral.isEmpty then none else some numeral

/-- The denomination that a text names. Mirrors `parse`. -/
def parse (input : String) : Logged (Except Fault Denomination) :=
  let text := Text.trim input.toList
  match ofName? (String.ofList text) with
  | some u => .silent (.ok u)
  | none =>
    match exponentPart? text with
    | some numeral =>
      .silent <|
        match Integer32.read numeral with
        | .ok exponent => .ok ⟨exponent⟩
        | .error cause => .error (.malformedInteger cause)
    | none =>
      .noting ("Unrecognized amount unit " ++ String.ofList (Text.quoted text))
        (.error (.badArgument ("Unknown units: " ++ String.ofList text)))

/-- The denomination that a text names, its records dropped. Mirrors `from_str`. -/
def ofString (input : String) : Except Fault Denomination := (parse input).result

end Coinage.Denomination
