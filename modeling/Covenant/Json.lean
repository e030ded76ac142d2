import Covenant.Text.Decimal

/-!
# JSON values

A JSON value keeps the parts of its text that a reader may want to look at: a string is kept as
written between its quotes, escapes and all, and a number as its literal. A string is decoded when
it is asked for (`Json.text?`), so one whose escapes name half of a surrogate pair is a value like
any other until then.

* `Json.escape` and `Json.unescape?` go between a text and its written form in a string.
* `Json.text?`, `Json.integer?` and `Json.fields?` look at a value as a text, an integer or a record.
-/

namespace Covenant

/-- A JSON value. Strings and the names of members are as written between their quotes. -/
inductive Json where
  | null
  | bool (b : Bool)
  | number (literal : List Char)
  | string (raw : List Char)
  | array (items : List Json)
  | object (members : List (List Char × Json))

namespace Json

/-! ### Strings -/

/-- The value of a hexadecimal digit of either case. -/
def hexValue? (c : Char) : Option Nat :=
  if '0' ≤ c ∧ c ≤ '9' then some (c.toNat - '0'.toNat)
  else if 'a' ≤ c ∧ c ≤ 'f' then some (c.toNat - 'a'.toNat + 10)
  else if 'A' ≤ c ∧ c ≤ 'F' then some (c.toNat - 'A'.toNat + 10)
  else none

/-- The number that four hexadecimal digits spell. -/
def hexUnit? (a b c d : Char) : Option Nat :=
  match hexValue? a, hexValue? b, hexValue? c, hexValue? d with
  | some a, some b, some c, some d => some (((a * 16 + b) * 16 + c) * 16 + d)
  | _, _, _, _ => none

/-- The character a one-letter escape stands for. -/
def letterEscape? : Char → Option Char
  | '"' => some '"'
  | '\\' => some '\\'
  | '/' => some '/'
  | 'b' => some '\x08'
  | 'f' => some '\x0c'
  | 'n' => some '\n'
  | 'r' => some '\r'
  | 't' => some '\t'
  | _ => none

/-- A digit of lower-case hexadecimal. -/
def hexDigit (n : Nat) : Char :=
  Char.ofNat (if n < 10 then '0'.toNat + n else 'a'.toNat + (n - 10))

/-- How a character is written inside a string. -/
def escapeChar (c : Char) : List Char :=
  if c == '"' then ['\\', '"']
  else if c == '\\' then ['\\', '\\']
  else if c == '\x08' then ['\\', 'b']
  else if c == '\x0c' then ['\\', 'f']
  else if c == '\n' then ['\\', 'n']
  else if c == '\r' then ['\\', 'r']
  else if c == '\t' then ['\\', 't']
  else if c.toNat < 0x20 then
    ['\\', 'u', '0', '0', hexDigit (c.toNat / 16), hexDigit (c.toNat % 16)]
  else [c]

/-- How a text is written inside a string. -/
def escape (text : String) : List Char := text.toList.flatMap escapeChar

/-- One piece of a string: a character, or a 16-bit unit given by number. -/
inductive Piece where
  | char (c : Char)
  | unit (n : Nat)

/-- The pieces of a string as written. -/
def pieces? : List Char → Option (List Piece)
  | [] => some []
  | '\\' :: 'u' :: a :: b :: c :: d :: rest =>
    match hexUnit? a b c d, pieces? rest with
    | some n, some ps => some (.unit n :: ps)
    | _, _ => none
  | '\\' :: e :: rest =>
    match letterEscape? e, pieces? rest with
    | some c, some ps => some (.char c :: ps)
    | _, _ => none
  | c :: rest => (pieces? rest).map (.char c :: ·)

/-- Whether a unit is the first half of a surrogate pair. -/
def isHighSurrogate (n : Nat) : Bool := 0xD800 ≤ n && n ≤ 0xDBFF

/-- Whether a unit is the second half of a surrogate pair. -/
def isLowSurrogate (n : Nat) : Bool := 0xDC00 ≤ n && n ≤ 0xDFFF

/-- The characters that pieces stand for. A surrogate without its other half stands for none. -/
def joinPieces : List Piece → Option (List Char)
  | [] => some []
  | .char c :: rest => (joinPieces rest).map (c :: ·)
  | .unit n :: .unit m :: rest =>
    if isHighSurrogate n then
      if isLowSurrogate m then
        (joinPieces rest).map (Char.ofNat (0x10000 + (n - 0xD800) * 0x400 + (m - 0xDC00)) :: ·)
      else none
    else if isLowSurrogate n then none
    else (joinPieces (.unit m :: rest)).map (Char.ofNat n :: ·)
  | .unit n :: rest =>
    if isHighSurrogate n || isLowSurrogate n then none
    else (joinPieces rest).map (Char.ofNat n :: ·)

/-- The text that a string as written stands for. -/
def unescape? (raw : List Char) : Option String :=
  (pieces? raw).bind fun ps => (joinPieces ps).map String.ofList

/-! ### Looking at values -/

/-- The text of a string value. -/
def text? : Json → Option String
  | .string raw => unescape? raw
  | _ => none

/-- The items of an array. -/
def items? : Json → Option (List Json)
  | .array items => some items
  | _ => none

/-- The members of an object, their names as written. -/
def members? : Json → Option (List (List Char × Json))
  | .object members => some members
  | _ => none

/-- The value of a number literal without point and exponent. Minus zero is not one: it has no
integer value of its own. -/
def integer? : Json → Option Int
  | .number ('-' :: digits) =>
    if digits.all Char.isDigit && Text.digitsValue digits != 0 then
      some (-(Text.digitsValue digits : Int))
    else none
  | .number digits => if digits.all Char.isDigit then some (Text.digitsValue digits) else none
  | _ => none

/-- A string value. -/
def ofText (text : String) : Json := .string (escape text)

/-- An object with the given members. -/
def ofMembers (members : List (String × Json)) : Json :=
  .object (members.map fun (name, value) => (escape name, value))

/-- The value of a member that may be missing; `none` when there are several of that name. -/
def uniqueMember? (name : String) (members : List (String × Json)) : Option (Option Json) :=
  match members.filter fun member => member.1 == name with
  | [] => some none
  | [member] => some (some member.2)
  | _ => none

/-- Decodes the names of members. -/
def decodeNames? : List (List Char × Json) → Option (List (String × Json))
  | [] => some []
  | (raw, value) :: rest =>
    match unescape? raw, decodeNames? rest with
    | some name, some members => some ((name, value) :: members)
    | _, _ => none

/-- Reads a value as a record with the given fields. An object names its fields, each at most once,
and may hold others, which count for nothing; an array gives them in order and may stop short. A
field that is not given is `none`. -/
def fields? (names : List String) : Json → Option (List (Option Json))
  | .object members =>
    match decodeNames? members with
    | some members => names.mapM fun name => uniqueMember? name members
    | none => none
  | .array items =>
    if items.length ≤ names.length then
      some (items.map some ++ List.replicate (names.length - items.length) none)
    else none
  | _ => none

end Json

end Covenant
