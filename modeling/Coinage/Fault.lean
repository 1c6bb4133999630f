import Coinage.Binary64.Text
import Coinage.Integer32
import Coinage.Text.Quoted

/-!
# Faults

What can be wrong with an input: a text that names no denomination, a number that is no amount,
a numeral that is no integer. A fault has a message for readers (`message`), a rendering that
shows its parts unmistakably (`inspect`), and possibly a cause of its own (`source`).
-/
namespace Coinage

/-- Why an input was refused. Mirrors `Error`. -/
inductive Fault where
  /-- The input does not mean anything here; the text says why. -/
  | badArgument (text : String)
  /-- The number cannot be an amount. -/
  | invalidAmount (number : Binary64)
  /-- A numeral in the input is not an integer. -/
  | malformedInteger (cause : IntegerFault)
deriving DecidableEq

namespace Fault

/-- The fault for readers. Mirrors `Display` of errors. -/
def message : Fault → String
  | badArgument text => "Bad argument: " ++ text
  | invalidAmount number => "Invalid OMC amount: " ++ number.text
  | malformedInteger cause => "ParseIntError: " ++ cause.message

/-- The fault by name with its parts in brackets, texts quoted and numbers with a point. Mirrors
`Debug` of errors. -/
def inspect : Fault → String
  | badArgument text => "BadArgument(" ++ String.ofList (Text.quoted text.toList) ++ ")"
  | invalidAmount number => "InvalidAmount(" ++ number.inspect ++ ")"
  | malformedInteger cause =>
    "ParseIntError(ParseIntError \x7b kind: " ++ cause.kind ++ " \x7d)"

/-- The fault that this one was caused by. Mirrors `source`. -/
def source : Fault → Option IntegerFault
  | malformedInteger cause => some cause
  | _ => none

end Fault

end Coinage
