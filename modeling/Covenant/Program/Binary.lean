import Covenant.Program
import Covenant.Sha256
import Covenant.Wire

/-!
# Programs in binary

The binary form is canonical, and its digest is the address of the program.

* `Program.toBytes` writes; `Program.Draft.reader` reads, up to the check of the opcodes.
* `Program.address` is the digest.
-/

namespace Covenant

namespace Instruction

/-- An instruction: its mnemonic, and its constant if it has one. -/
def toBytes (i : Instruction) : Bytes :=
  Wire.text i.mnemonic ++ Wire.option Word.toBytes i.operand?

end Instruction

namespace Program

/-- The code of a function: its parameters, then its body. -/
def functionToBytes (f : FunctionCode) : Bytes :=
  Wire.list Word.toBytes f.parameters ++ Wire.list Instruction.toBytes f.body

/-- An entry of the function table: the index, then the function. -/
def entryToBytes (entry : Nat × FunctionCode) : Bytes :=
  Wire.varint entry.1 ++ functionToBytes entry.2

/-- A program: its initialization, then its functions by rising index. -/
def toBytes (p : Program) : Bytes :=
  Wire.list Instruction.toBytes p.initialization ++ Wire.list entryToBytes p.functions.entries

/-- The address of a program: the digest of its binary form. -/
def address (p : Program) : Word := sha256 p.toBytes

/-- Reads a draft instruction. -/
def DraftInstruction.reader : Wire.Reader DraftInstruction := do
  let opcode ← Wire.Reader.text
  let value ← Wire.Reader.option Wire.Reader.word
  return ⟨opcode, value⟩

/-- Reads a draft function. -/
def DraftFunction.reader : Wire.Reader DraftFunction := do
  let parameters ← Wire.Reader.list Wire.Reader.word
  let body ← Wire.Reader.list DraftInstruction.reader
  return ⟨parameters, body⟩

/-- Reads an entry of a draft function table. -/
def readEntry : Wire.Reader (Nat × DraftFunction) := do
  let index ← Wire.Reader.varint
  let function ← DraftFunction.reader
  return (index, function)

/-- Reads a draft program. Of several functions with one index the last one counts. -/
def Draft.reader : Wire.Reader Draft := do
  let initialization ← Wire.Reader.list DraftInstruction.reader
  let functions ← Wire.Reader.list readEntry
  return ⟨initialization, Table.ofList functions⟩

end Program

namespace Instruction

/-- Reads an instruction; a mnemonic and constant that make none are rejected. -/
def reader : Wire.Reader Instruction := do
  let draft ← Program.DraftInstruction.reader
  match draft.check with
  | .ok i => return i
  | .error _ => throw .rejected

end Instruction

end Covenant
