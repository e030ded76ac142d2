import Covenant.Instruction
import Covenant.Table

/-!
# Programs

A compiled contract: the code that runs once, on deployment, and a table of functions. Function
indices need not be consecutive in a program that was not compiled from a contract.

A `Program.Draft` is a program whose instructions are still mnemonics and constants, as they come
from outside; `Program.Draft.check` turns them into instructions or names the first that is none.
-/

namespace Covenant

/-- The code of a function. Argument `i` is bound in memory under the key `parameters[i]`. -/
structure FunctionCode where
  parameters : List Word := []
  body : List Instruction := []
  deriving DecidableEq

/-- A compiled contract. -/
structure Program where
  /-- The code that runs on deployment. -/
  initialization : List Instruction := []
  /-- The functions by index. -/
  functions : Table Nat FunctionCode := ∅
  deriving DecidableEq

namespace Program

/-- The number of instructions, in the initialization and in all functions. -/
def length (p : Program) : Nat :=
  p.functions.values.foldl (fun n f => n + f.body.length) p.initialization.length

/-- Whether a program has no instruction at all. -/
def isEmpty (p : Program) : Bool := p.length == 0

/-- An instruction as it comes from outside. -/
structure DraftInstruction where
  opcode : String
  value : Option Word := none
  deriving DecidableEq

/-- A function as it comes from outside. -/
structure DraftFunction where
  parameters : List Word := []
  body : List DraftInstruction := []
  deriving DecidableEq

/-- A program as it comes from outside. -/
structure Draft where
  initialization : List DraftInstruction := []
  functions : Table Nat DraftFunction := ∅
  deriving DecidableEq

/-- The instruction a draft stands for. -/
def DraftInstruction.check (i : DraftInstruction) : Except InstructionError Instruction :=
  Instruction.ofParts i.opcode i.value

/-- The instructions a list of drafts stands for, or the error of the first that has none. -/
def checkAll : List DraftInstruction → Except InstructionError (List Instruction)
  | [] => .ok []
  | first :: rest =>
    match first.check with
    | .error e => .error e
    | .ok i => (checkAll rest).map (i :: ·)

/-- The function a draft stands for. -/
def DraftFunction.check (f : DraftFunction) : Except InstructionError FunctionCode :=
  (checkAll f.body).map fun body => ⟨f.parameters, body⟩

/-- The program a draft stands for. The initialization is looked at first, then the functions by
rising index. -/
def Draft.check (d : Draft) : Except InstructionError Program :=
  match checkAll d.initialization with
  | .error e => .error e
  | .ok initialization =>
    (d.functions.traverse DraftFunction.check).map fun functions => ⟨initialization, functions⟩

end Program

end Covenant
