/-!
# Quoted text

A text on one line between double quotes. The quote, the backslash, the tab, both line ends and
the null character have short escapes; every other control character is written by its code
point in hexadecimal between braces; all other characters stand for themselves.

`encode` writes what is between the quotes, `decode` undoes it, and `quoted` adds the quotes.
-/
namespace Coinage.Text

/-- The control characters: U+0000 to U+001F and U+007F to U+009F. -/
def isControl (c : Char) : Bool := c.toNat < 0x20 || (0x7F ≤ c.toNat && c.toNat < 0xA0)

/-- The character that stands after a backslash for `c`, where `c` has a short escape. -/
def shortEscape? : Char → Option Char
  | '\"' => some '\"'
  | '\\' => some '\\'
  | '\t' => some 't'
  | '\n' => some 'n'
  | '\r' => some 'r'
  | '\x00' => some '0'
  | _ => none

/-- The written form of one character. -/
def escape (c : Char) : List Char :=
  match shortEscape? c with
  | some short => ['\\', short]
  | none =>
    if isControl c then ['\\', 'u', '\x7b'] ++ Nat.toDigits 16 c.toNat ++ ['\x7d'] else [c]

/-- The written form of a text, without the quotes. -/
def encode (text : List Char) : List Char := text.flatMap escape

/-- The written form of a text between quotes. -/
def quoted (text : List Char) : List Char := '\"' :: encode text ++ ['\"']

/-- The character that a short escape stands for. -/
def ofShortEscape? : Char → Option Char
  | '\"' => some '\"'
  | '\\' => some '\\'
  | 't' => some '\t'
  | 'n' => some '\n'
  | 'r' => some '\r'
  | '0' => some '\x00'
  | _ => none

/-- The value of a lower-case hexadecimal digit. -/
def hexDigit? (c : Char) : Option Nat :=
  if '0' ≤ c ∧ c ≤ '9' then some (c.toNat - 48)
  else if 'a' ≤ c ∧ c ≤ 'f' then some (c.toNat - 87)
  else none

/-- Undoes escapes; inside the braces of an escape by code point, `code` is the value so far. -/
def decodeFrom (code : Option Nat) : List Char → Option (List Char)
  | [] => if code.isNone then some [] else none
  | c :: rest =>
    match code with
    | some n =>
      if c = '\x7d' then (Char.ofNat n :: ·) <$> decodeFrom none rest
      else do decodeFrom (some (16 * n + (← hexDigit? c))) rest
    | none =>
      if c = '\\' then
        match rest with
        | 'u' :: '\x7b' :: rest => decodeFrom (some 0) rest
        | short :: rest => do return (← ofShortEscape? short) :: (← decodeFrom none rest)
        | [] => none
      else (c :: ·) <$> decodeFrom none rest

/-- The text that a written form stands for. -/
def decode (written : List Char) : Option (List Char) := decodeFrom none written

end Coinage.Text
