import Covenant.Json

/-!
# Reading JSON

The standard grammar and nothing beside it: no comments, no trailing commas, one value with only
blanks around it. The scanners take a text apart from the left and give back what is left of it;
those that recurse carry a bound, which a text's own length is enough for.

* `Json.scanString` and `Json.scanNumber` take the two kinds of atom.
* `Json.parse?` reads a text that holds one value.
-/

namespace Covenant

namespace Json

/-- The blank characters of JSON. -/
def isBlank (c : Char) : Bool := c == ' ' || c == '\n' || c == '\r' || c == '\t'

/-- A text without the blanks at its front. -/
def skipBlank (text : List Char) : List Char := text.dropWhile isBlank

/-- A string after its opening quote: what is written up to the closing quote, and the text after
it. Control characters and unknown escapes are refused. -/
def scanString : List Char → Option (List Char × List Char)
  | [] => none
  | '"' :: rest => some ([], rest)
  | '\\' :: 'u' :: a :: b :: c :: d :: rest =>
    match hexUnit? a b c d, scanString rest with
    | some _, some (raw, left) => some ('\\' :: 'u' :: a :: b :: c :: d :: raw, left)
    | _, _ => none
  | '\\' :: e :: rest =>
    match letterEscape? e, scanString rest with
    | some _, some (raw, left) => some ('\\' :: e :: raw, left)
    | _, _ => none
  | c :: rest =>
    if c == '\\' || c.toNat < 0x20 then none
    else match scanString rest with
      | some (raw, left) => some (c :: raw, left)
      | none => none

/-- One or more digits, and the text after them. -/
def scanDigits (text : List Char) : Option (List Char × List Char) :=
  match text.takeWhile Char.isDigit with
  | [] => none
  | digits => some (digits, text.dropWhile Char.isDigit)

/-- The digits before the point of a number: a lone zero, or digits of which the first is not
zero. -/
def scanWhole : List Char → Option (List Char × List Char)
  | '0' :: rest => some (['0'], rest)
  | text => scanDigits text

/-- The point of a number and the digits after it, if it has them. -/
def scanFraction : List Char → Option (List Char × List Char)
  | '.' :: rest => (scanDigits rest).map fun (digits, left) => ('.' :: digits, left)
  | text => some ([], text)

/-- The sign of an exponent. -/
def scanSign : List Char → List Char × List Char
  | '+' :: rest => (['+'], rest)
  | '-' :: rest => (['-'], rest)
  | text => ([], text)

/-- The exponent of a number, if it has one. -/
def scanExponent : List Char → Option (List Char × List Char)
  | [] => some ([], [])
  | c :: rest =>
    if c == 'e' || c == 'E' then
      let (sign, rest) := scanSign rest
      (scanDigits rest).map fun (digits, left) => (c :: sign ++ digits, left)
    else some ([], c :: rest)

/-- A number literal without its sign. -/
def scanUnsigned (text : List Char) : Option (List Char × List Char) := do
  let (whole, text) ← scanWhole text
  let (fraction, text) ← scanFraction text
  let (exponent, text) ← scanExponent text
  return (whole ++ fraction ++ exponent, text)

/-- A number literal, and the text after it. -/
def scanNumber : List Char → Option (List Char × List Char)
  | '-' :: rest => (scanUnsigned rest).map fun (literal, left) => ('-' :: literal, left)
  | text => scanUnsigned text

mutual

/-- A value and the text after it, within a bound on the length of the text. -/
def scanValue : Nat → List Char → Option (Json × List Char)
  | 0, _ => none
  | bound + 1, text =>
    match skipBlank text with
    | 'n' :: 'u' :: 'l' :: 'l' :: rest => some (.null, rest)
    | 't' :: 'r' :: 'u' :: 'e' :: rest => some (.bool true, rest)
    | 'f' :: 'a' :: 'l' :: 's' :: 'e' :: rest => some (.bool false, rest)
    | '"' :: rest => (scanString rest).map fun (raw, left) => (.string raw, left)
    | '[' :: rest =>
      match skipBlank rest with
      | ']' :: left => some (.array [], left)
      | rest => (scanItems bound rest).map fun (items, left) => (.array items, left)
    | '{' :: rest =>
      match skipBlank rest with
      | '}' :: left => some (.object [], left)
      | rest => (scanMembers bound rest).map fun (members, left) => (.object members, left)
    | text => (scanNumber text).map fun (literal, left) => (.number literal, left)

/-- One or more items of an array and its closing bracket. -/
def scanItems : Nat → List Char → Option (List Json × List Char)
  | 0, _ => none
  | bound + 1, text =>
    match scanValue bound text with
    | none => none
    | some (item, rest) =>
      match skipBlank rest with
      | ',' :: rest => (scanItems bound rest).map fun (items, left) => (item :: items, left)
      | ']' :: left => some ([item], left)
      | _ => none

/-- One or more members of an object and its closing brace. -/
def scanMembers : Nat → List Char → Option (List (List Char × Json) × List Char)
  | 0, _ => none
  | bound + 1, text =>
    match skipBlank text with
    | '"' :: rest =>
      match scanString rest with
      | none => none
      | some (name, rest) =>
        match skipBlank rest with
        | ':' :: rest =>
          match scanValue bound rest with
          | none => none
          | some (value, rest) =>
            match skipBlank rest with
            | ',' :: rest =>
              (scanMembers bound rest).map fun (members, left) => ((name, value) :: members, left)
            | '}' :: left => some ([(name, value)], left)
            | _ => none
        | _ => none
    | _ => none

end

/-- Reads a text that holds one value with nothing but blanks around it. -/
def parse? (text : String) : Option Json :=
  match scanValue (2 * text.length + 2) text.toList with
  | some (value, rest) => if (skipBlank rest).isEmpty then some value else none
  | none => none

end Json

end Covenant
