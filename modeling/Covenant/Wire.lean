import Covenant.Word

/-!
# The binary form of data

Numbers are written in groups of seven bits, lowest first, each but the last with its high bit set.
A list is its length and its items, a text the length and the bytes of its UTF-8 encoding, a word
its 32 bytes, and a value that may be missing a byte `00`, or `01` and the value.

A reader takes bytes from the front of an input and gives back what is left. It takes a number in
more groups than needed, up to the ten that 64 bits fill.

* `Wire.varint` and `Wire.list` write; `Wire.Reader.varint` and `Wire.Reader.list` read.
-/

namespace Covenant

namespace Wire

/-- Why an input cannot be read. -/
inductive Error where
  /-- The input ends inside a value. -/
  | endOfInput
  /-- A number of more than 64 bits. -/
  | badVarint
  /-- A missing-or-present byte other than `00` and `01`. -/
  | badOption
  /-- A text that is not UTF-8. -/
  | badText
  /-- A value that is well formed but has no meaning. -/
  | rejected
  deriving DecidableEq

/-- The wording of a reading error. -/
def Error.message : Error → String
  | .endOfInput => "Hit the end of buffer, expected more data"
  | .badVarint => "Found a varint that didn't terminate. Is the usize too big for this platform?"
  | .badOption => "Found an Option discriminant that wasn't 0 or 1"
  | .badText => "Tried to parse invalid utf-8"
  | .rejected => "Serde Deserialization Error"

/-! ### Writing -/

/-- A number in groups of seven bits, lowest first. -/
def varint (n : Nat) : Bytes :=
  if n < 128 then [UInt8.ofNat n] else UInt8.ofNat (n % 128 + 128) :: varint (n / 128)
termination_by n
decreasing_by omega

/-- A list: its length, then its items. -/
def list {α : Type} (item : α → Bytes) (items : List α) : Bytes :=
  varint items.length ++ items.flatMap item

/-- A text: the length of its UTF-8 encoding, then the encoding. -/
def text (s : String) : Bytes :=
  let bytes := Bytes.ofText s
  varint bytes.length ++ bytes

/-- A value that may be missing. -/
def option {α : Type} (item : α → Bytes) : Option α → Bytes
  | none => [0]
  | some value => 1 :: item value

/-! ### Reading -/

/-- A reader of bytes: it takes some from the front and gives back the rest. -/
abbrev Reader := StateT Bytes (Except Error)

namespace Reader

/-- One byte. -/
def byte : Reader UInt8 := fun input =>
  match input with
  | [] => .error .endOfInput
  | b :: rest => .ok (b, rest)

/-- So many bytes. -/
def bytes (count : Nat) : Reader Bytes := fun input =>
  if count ≤ input.length then .ok (input.take count, input.drop count) else .error .endOfInput

/-- A number of at most so many groups. Of the last group of ten only one bit is in range. -/
def varintWithin : Nat → Reader Nat
  | 0 => fun _ => .error .badVarint
  | groups + 1 => fun input =>
    match input with
    | [] => .error .endOfInput
    | b :: rest =>
      if b < 128 then
        if groups = 0 ∧ 1 < b then .error .badVarint else .ok (b.toNat, rest)
      else
        match varintWithin groups rest with
        | .ok (n, left) => .ok (b.toNat - 128 + 128 * n, left)
        | .error e => .error e

/-- A number below 2^64. -/
def varint : Reader Nat := varintWithin 10

/-- So many items. -/
def items {α : Type} (item : Reader α) : Nat → Reader (List α)
  | 0 => return []
  | count + 1 => do
    let first ← item
    let rest ← items item count
    return first :: rest

/-- A list. -/
def list {α : Type} (item : Reader α) : Reader (List α) := do
  items item (← varint)

/-- A text. -/
def text : Reader String := do
  match Bytes.toText? (← bytes (← varint)) with
  | some s => return s
  | none => throw .badText

/-- A word. -/
def word : Reader Word := do
  return Word.ofNat (← bytes Word.size).toNat

/-- A value that may be missing. -/
def option {α : Type} (item : Reader α) : Reader (Option α) := do
  match ← byte with
  | 0 => return none
  | 1 => return some (← item)
  | _ => throw .badOption

/-- What a reader makes of an input, whatever is left of it. -/
def run? {α : Type} (reader : Reader α) (input : Bytes) : Except Error α :=
  (reader input).map Prod.fst

end Reader

end Wire

end Covenant
