import Covenant.Text.Printable

/-!
# Quoted text

How messages show a text or a character that came from outside: between quotes, with the quote
itself and the backslash escaped, the common controls by letter, and every other character without
a visible form by its code point in braces. Text that stands between braces itself is `braced`.
-/

namespace Covenant.Text

/-- The digits of a number in lower-case hexadecimal, without leading zeros. -/
def hexNumber (n : Nat) : List Char :=
  Nat.toDigits 16 n

/-- How one character is written between quotes of the kind `quote`. -/
def quotedChar (quote c : Char) : List Char :=
  if c == quote || c == '\\' then ['\\', c]
  else if c == '\n' then ['\\', 'n']
  else if c == '\r' then ['\\', 'r']
  else if c == '\t' then ['\\', 't']
  else if c == '\x00' then ['\\', '0']
  else if isShown c then [c]
  else ['\\', 'u', '{'] ++ hexNumber c.toNat ++ ['}']

/-- A text between double quotes. -/
def quoted (text : String) : String :=
  String.ofList ('"' :: text.toList.flatMap (quotedChar '"') ++ ['"'])

/-- A text between braces, with a space inside of each. -/
def braced (text : String) : String :=
  String.ofList ['{', ' '] ++ text ++ String.ofList [' ', '}']

/-- A character between single quotes. -/
def quotedLetter (c : Char) : String :=
  String.ofList ('\'' :: quotedChar '\'' c ++ ['\''])

end Covenant.Text
