/-!
# Decimal numbers in text

Two readers. Integers of any size may carry one sign, and underscores may group their digits after
the first. An index is an unsigned number below 2^64 that may carry a plus sign and nothing else.
-/

namespace Covenant.Text

/-- The value of an ASCII decimal digit. -/
def decimalValue (c : Char) : Nat :=
  c.toNat - '0'.toNat

/-- The number a string of decimal digits spells; underscores count for nothing. -/
def digitsValue (digits : List Char) : Nat :=
  digits.foldl (fun n c => if c == '_' then n else n * 10 + decimalValue c) 0

/-- An unsigned numeral: a digit, then digits and underscores. -/
def readDigits? (text : List Char) : Option Nat :=
  match text with
  | [] => none
  | c :: rest =>
    if c.isDigit && rest.all (fun d => d.isDigit || d == '_') then some (digitsValue (c :: rest))
    else none

/-- An integer: an optional sign and an unsigned numeral. -/
def readInt? (text : String) : Option Int :=
  match text.toList with
  | '-' :: digits => (readDigits? digits).map fun n => -(n : Int)
  | '+' :: digits => (readDigits? digits).map fun n => (n : Int)
  | digits => (readDigits? digits).map fun n => (n : Int)

/-- The first number that no longer is an index. -/
def indexBound : Nat := Nat.pow 2 64

/-- Digits alone, with a value below `indexBound`. -/
def readPlainIndex? (digits : List Char) : Option Nat :=
  if !digits.isEmpty && digits.all Char.isDigit && digitsValue digits < indexBound then
    some (digitsValue digits)
  else none

/-- An index: an optional plus sign and digits, below `indexBound`. -/
def readIndex? (text : String) : Option Nat :=
  match text.toList with
  | '+' :: digits => readPlainIndex? digits
  | digits => readPlainIndex? digits

/-- A number with at least `width` digits, filled up with zeros on the left. -/
def zeroPadded (width n : Nat) : String :=
  let digits := Nat.toDigits 10 n
  String.ofList (List.replicate (width - digits.length) '0' ++ digits)

/-- A text filled up with spaces on the right to at least `width` characters. -/
def leftAligned (width : Nat) (text : String) : String :=
  text ++ String.ofList (List.replicate (width - text.length) ' ')

end Covenant.Text
