import Covenant.Bytes
import Covenant.Text.Quoted

/-!
# Hexadecimal byte strings

Two digits a byte, high half first. Writing uses lower-case digits; reading takes either case and
says what is wrong with a text it refuses: an odd number of digits before anything else, then the
first byte that is no digit.
-/

namespace Covenant.Text.Hex

/-- The lower-case digit for a value below sixteen. -/
def digit (value : UInt8) : Char :=
  Char.ofNat (if value < 10 then 0x30 + value.toNat else 0x57 + value.toNat)

/-- The value of a hexadecimal digit of either case, given as a byte of ASCII. -/
def digitValue? (byte : UInt8) : Option UInt8 :=
  if 0x30 ≤ byte && byte ≤ 0x39 then some (byte - 0x30)
  else if 0x61 ≤ byte && byte ≤ 0x66 then some (byte - 0x57)
  else if 0x41 ≤ byte && byte ≤ 0x46 then some (byte - 0x37)
  else none

/-- Two lower-case digits a byte. -/
def encode (bytes : Bytes) : String :=
  String.ofList (bytes.flatMap fun byte => [digit (byte / 16), digit (byte % 16)])

/-- Why a text is not a hexadecimal byte string. -/
inductive Error where
  | oddLength
  | badDigit (byte : UInt8) (index : Nat)
  deriving DecidableEq

/-- The wording of a refusal. The offending byte is shown as the character of that code point. -/
def Error.message : Error → String
  | .oddLength => "Odd number of digits"
  | .badDigit byte index =>
    let letter := quotedLetter (Char.ofNat byte.toNat)
    s!"Invalid character {letter} at position {index}"

/-- Reads digit pairs, the first of them at position `index`. -/
def decodePairs (index : Nat) : Bytes → Except Error Bytes
  | high :: low :: rest =>
    match digitValue? high, digitValue? low with
    | some h, some l => (decodePairs (index + 2) rest).map ((h * 16 + l) :: ·)
    | none, _ => .error (.badDigit high index)
    | some _, none => .error (.badDigit low (index + 1))
  | _ => .ok []

/-- The bytes a text of hexadecimal digits stands for. Positions and the length count UTF-8
bytes. -/
def decode (text : String) : Except Error Bytes :=
  let digits := Bytes.ofText text
  if digits.length % 2 = 1 then .error .oddLength else decodePairs 0 digits

end Covenant.Text.Hex
