import Covenant.Program.Binary
import Covenant.Program.Json

/-!
# Programs from outside

Both external forms are read in two steps. The whole input is decoded first; only then are the
opcodes checked. So an input with a bad opcode and a malformed end counts as malformed.
-/

namespace Covenant

/-- Why an input is no program. -/
inductive ProgramError where
  /-- The text is no JSON, or JSON of another shape. -/
  | malformedText
  /-- The bytes are no binary form of a program. -/
  | malformedBytes (cause : Wire.Error)
  /-- A well-formed input with an instruction that does not exist. -/
  | instruction (cause : InstructionError)
  deriving DecidableEq

/-- The wording of a program error. -/
def ProgramError.message : ProgramError → String
  | .malformedText => "invalid bytecode: not a program"
  | .malformedBytes cause => "invalid bytecode: " ++ cause.message
  | .instruction cause => cause.message

namespace Program

/-- Checks the opcodes of a draft. -/
def Draft.accept (d : Draft) : Except ProgramError Program :=
  match d.check with
  | .ok p => .ok p
  | .error e => .error (.instruction e)

/-- Reads a program from its JSON text. -/
def ofJsonText (text : String) : Except ProgramError Program :=
  match (Json.parse? text).bind Draft.ofJson? with
  | some draft => draft.accept
  | none => .error .malformedText

/-- Reads a program from the front of its binary form. -/
def ofBytes (bytes : Bytes) : Except ProgramError Program :=
  match Draft.reader.run? bytes with
  | .ok draft => draft.accept
  | .error e => .error (.malformedBytes e)

end Program

end Covenant
