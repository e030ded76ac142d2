import Covenant.Word

/-!
# Encoding outside values as words

Integers, texts and hexadecimal digits come from outside and need not fit. Each encoder here either
gives the word or names the reason it cannot; the wording of the reasons is in
`EncodingError.message`. Numbers of 64 bits always fit, and are put into the last eight bytes.

`Word.describe` goes the other way. It shows a word in the form a person most likely meant: a small
integer in decimal, printable text in quotes, anything else as digits.
-/

namespace Covenant

/-- Why a value has no word. -/
inductive EncodingError where
  /-- A literal whose magnitude exceeds `Word.maxSafeInt`. -/
  | unsafeInteger (n : Int)
  /-- An integer outside `[-2^255, 2^256)`. -/
  | outOfRange (n : Int)
  /-- A text of more than 32 bytes. -/
  | textTooLong (text : String) (length : Nat)
  /-- A text that is not 64 hexadecimal digits after an optional `0x`. -/
  | invalidHex (text : String)
  deriving DecidableEq

/-- The wording of an encoding error. -/
def EncodingError.message : EncodingError → String
  | .unsafeInteger n => s!"integer {n} is not a safe integer (magnitude above 2^53 - 1)"
  | .outOfRange n => s!"integer {n} does not fit in a 256-bit word"
  | .textTooLong text length =>
    s!"text {Text.quoted text} is {length} bytes, a word holds at most 32"
  | .invalidHex text => s!"invalid word hex {Text.quoted text}"

namespace Word

/-- The largest magnitude of an integer literal, 2^53 - 1. -/
def maxSafeInt : Nat := Nat.pow 2 53 - 1

/-- Encodes an integer that has a signed or an unsigned reading in 256 bits. -/
def ofInt (n : Int) : Except EncodingError Word :=
  if -Int.pow 2 255 ≤ n ∧ n < Int.pow 2 256 then .ok (wrap n) else .error (.outOfRange n)

/-- Encodes an integer literal. -/
def ofSafeInt (n : Int) : Except EncodingError Word :=
  if n.natAbs ≤ maxSafeInt then ofInt n else .error (.unsafeInteger n)

/-- Encodes an unsigned number of 64 bits: its eight bytes, after zero bytes. -/
def ofUInt64 (n : UInt64) : Word :=
  ofNat (Bytes.toNat (List.replicate (size - 8) 0 ++ Bytes.bigEndian 8 n.toNat))

/-- Encodes a signed number of 64 bits: its eight bytes, after bytes that repeat the sign. -/
def ofInt64 (n : Int64) : Word :=
  let fill := if n < 0 then 0xFF else 0
  ofNat (Bytes.toNat (List.replicate (size - 8) fill ++ Bytes.bigEndian 8 n.toUInt64.toNat))

/-- Encodes a short text: its UTF-8 bytes, filled up with zero bytes on the right. -/
def ofText (text : String) : Except EncodingError Word :=
  let bytes := Bytes.ofText text
  if bytes.length ≤ size then
    .ok (ofNat (Bytes.toNat (bytes ++ List.replicate (size - bytes.length) 0)))
  else .error (.textTooLong text bytes.length)

/-- Reads 64 hexadecimal digits, with or without `0x` before them. -/
def ofHex (text : String) : Except EncodingError Word :=
  let digits := match text.toList with
    | '0' :: 'x' :: rest => String.ofList rest
    | _ => text
  match ofDigits? digits with
  | some w => .ok w
  | none => .error (.invalidHex text)

/-- The printable ASCII characters other than the space. -/
def isGraphic (c : Char) : Bool := 0x21 ≤ c.toNat && c.toNat ≤ 0x7E

/-- Shows a word: in decimal when it is a small integer, else as quoted text when it holds printable
ASCII, else as hexadecimal digits after `0x`. -/
def describe (w : Word) : String :=
  if w.toInt.natAbs ≤ maxSafeInt then toString w.toInt
  else match w.toText? with
    | some text =>
      if !text.isEmpty && text.toList.all isGraphic then "\"" ++ text ++ "\"" else "0x" ++ w.hex
    | none => "0x" ++ w.hex

/-- The diagnostic form of a word. -/
def debug (w : Word) : String := s!"Word({w.describe})"

end Word

end Covenant
