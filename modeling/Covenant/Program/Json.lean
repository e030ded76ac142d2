import Covenant.Json.Read
import Covenant.Json.Write
import Covenant.Program

/-!
# Programs in JSON

    { "initialization": [ {"opcode": "PUSH", "value": "<64 digits>"}, ... ],
      "functions": { "0": { "params": ["<64 digits>"], "body": [ ... ] } } }

An instruction without a constant has no member `value`. Reading is more liberal than writing: words
may also be integers, records may be arrays of their fields, and every field but `opcode` may be
left out.

* `Program.toJson` and `Program.toJsonText` write.
* `Program.Draft.ofJson?` reads, up to the check of the opcodes.
-/

namespace Covenant

namespace Word

/-- A word as its digits. -/
def toJson (w : Word) : Json := .ofText w.hex

/-- A word from a string of digits, or from an integer of 64 bits, signed or unsigned. -/
def ofJson? (value : Json) : Option Word :=
  match value.text? with
  | some text => (ofHex text).toOption
  | none =>
    match value.integer? with
    | some n =>
      if 0 ≤ n ∧ n < Int.pow 2 64 then some (ofUInt64 (.ofInt n))
      else if -Int.pow 2 63 ≤ n ∧ n < 0 then some (ofInt64 (.ofInt n))
      else none
    | none => none

end Word

namespace Instruction

/-- An instruction as an object; `value` is there only with a constant. -/
def toJson (i : Instruction) : Json :=
  match i.operand? with
  | some w => .ofMembers [("opcode", .ofText i.mnemonic), ("value", w.toJson)]
  | none => .ofMembers [("opcode", .ofText i.mnemonic)]

end Instruction

namespace Program

/-- A list of values, each of which has to be readable. -/
def readAll? {α : Type} (item : Json → Option α) : List Json → Option (List α)
  | [] => some []
  | first :: rest =>
    match item first, readAll? item rest with
    | some value, some values => some (value :: values)
    | _, _ => none

/-- A field that is an array, or empty when it is left out. -/
def readList? {α : Type} (item : Json → Option α) : Option Json → Option (List α)
  | none => some []
  | some value => value.items?.bind (readAll? item)

/-- A draft instruction as an object with both members; a missing constant is `null`. -/
def DraftInstruction.toJson (i : DraftInstruction) : Json :=
  .ofMembers [("opcode", .ofText i.opcode),
    ("value", match i.value with
      | some w => w.toJson
      | none => .null)]

/-- A constant that may be left out or `null`. -/
def readOperand? : Option Json → Option (Option Word)
  | none => some none
  | some .null => some none
  | some value => (Word.ofJson? value).map some

/-- Reads a draft instruction. -/
def DraftInstruction.ofJson? (value : Json) : Option DraftInstruction :=
  match value.fields? ["opcode", "value"] with
  | some [some opcode, operand] =>
    match opcode.text?, readOperand? operand with
    | some opcode, some operand => some ⟨opcode, operand⟩
    | _, _ => none
  | _ => none

/-- Reads a draft function. -/
def DraftFunction.ofJson? (value : Json) : Option DraftFunction :=
  match value.fields? ["params", "body"] with
  | some [parameters, body] =>
    match readList? Word.ofJson? parameters, readList? DraftInstruction.ofJson? body with
    | some parameters, some body => some ⟨parameters, body⟩
    | _, _ => none
  | _ => none

/-- The function index a member name spells: digits as written, without a leading zero, below
2^64. -/
def readIndex? (raw : List Char) : Option Nat :=
  if raw.all Char.isDigit && (raw == ['0'] || raw.head?.any (· != '0'))
      && Text.digitsValue raw < Text.indexBound then
    some (Text.digitsValue raw)
  else none

/-- Reads the members of a table of functions. -/
def readFunctions? : List (List Char × Json) → Option (List (Nat × DraftFunction))
  | [] => some []
  | (name, value) :: rest =>
    match readIndex? name, DraftFunction.ofJson? value, readFunctions? rest with
    | some index, some function, some functions => some ((index, function) :: functions)
    | _, _, _ => none

/-- Reads a table of functions, or an empty one when it is left out. Of several functions with one
index the last one counts. -/
def readTable? : Option Json → Option (Table Nat DraftFunction)
  | none => some ∅
  | some value => (value.members?.bind readFunctions?).map Table.ofList

/-- Reads a draft program. -/
def Draft.ofJson? (value : Json) : Option Draft :=
  match value.fields? ["initialization", "functions"] with
  | some [initialization, functions] =>
    match readList? DraftInstruction.ofJson? initialization, readTable? functions with
    | some initialization, some functions => some ⟨initialization, functions⟩
    | _, _ => none
  | _ => none

/-- A list of instructions. -/
def codeToJson (code : List Instruction) : Json := .array (code.map Instruction.toJson)

/-- The code of a function. -/
def functionToJson (f : FunctionCode) : Json :=
  .ofMembers [("params", .array (f.parameters.map Word.toJson)), ("body", codeToJson f.body)]

/-- A program. -/
def toJson (p : Program) : Json :=
  .ofMembers
    [("initialization", codeToJson p.initialization),
     ("functions", .ofMembers (p.functions.entries.map fun (index, f) =>
       (toString index, functionToJson f)))]

/-- The text of a program, one item a line. -/
def toJsonText (p : Program) : String := p.toJson.renderPretty

end Program

end Covenant
