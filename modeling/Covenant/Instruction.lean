import Covenant.Operator
import Covenant.Text.Quoted
import Covenant.Word.Encoding

/-!
# Instructions

The instruction set of the machine. Every binary operator of the language is one instruction, which
pops the right operand first and then the left one. Jump targets are absolute positions in the
instruction list that is running.

* `Instruction.mnemonic` and `Instruction.operand?` are the two parts of the external form, and
  `Instruction.ofParts` puts them together again.
* `Instruction.effect` says how many words an instruction takes from the stack and puts on it.
-/

namespace Covenant

/-- One machine instruction. -/
inductive Instruction where
  /-- Puts a constant on the stack. -/
  | push (w : Word)
  /-- Puts the memory cell under a key on the stack; parameters are read with it. -/
  | pushParam (key : Word)
  | pop
  /-- `( address -- value )` -/
  | sload
  /-- `( value address -- )` -/
  | sstore
  /-- `( address -- value )` -/
  | mload
  /-- `( value address -- )` -/
  | mstore
  | hash256
  /-- `( left right -- result )` -/
  | binary (op : Operator)
  /-- `( target -- )` -/
  | jump
  /-- `( target condition -- )`, which jumps when the condition is zero. -/
  | jumpi
  deriving DecidableEq

/-- Why a mnemonic and an operand make no instruction. -/
inductive InstructionError where
  | unknownOpcode (name : String)
  | missingOperand (name : String)
  deriving DecidableEq

/-- The wording of an instruction error. -/
def InstructionError.message : InstructionError → String
  | .unknownOpcode name => s!"unknown opcode {Text.quoted name}"
  | .missingOperand name => s!"opcode {name} requires a value"

/-- The mnemonic of an operator's instruction. -/
def Operator.mnemonic : Operator → String
  | .add => "ADD"
  | .subtract => "SUBTRACT"
  | .multiply => "MULTIPLY"
  | .divide => "DIVIDE"
  | .modulo => "MODULO"
  | .equal => "EQUAL"
  | .notEqual => "NOT_EQUAL"
  | .less => "LESS_THAN"
  | .greater => "GREATER_THAN"
  | .lessEqual => "LESS_THAN_EQUAL"
  | .greaterEqual => "GREATER_THAN_EQUAL"
  | .and => "AND"
  | .or => "OR"

namespace Instruction

/-- The name of an instruction in programs and listings. -/
def mnemonic : Instruction → String
  | .push _ => "PUSH"
  | .pushParam _ => "PUSH_PARAM"
  | .pop => "POP"
  | .sload => "SLOAD"
  | .sstore => "SSTORE"
  | .mload => "MLOAD"
  | .mstore => "MSTORE"
  | .hash256 => "HASH256"
  | .binary op => op.mnemonic
  | .jump => "JUMP"
  | .jumpi => "JUMPI"

/-- The constant an instruction carries. -/
def operand? : Instruction → Option Word
  | .push w | .pushParam w => some w
  | _ => none

/-- How many words an instruction pops, and how many it pushes. -/
def effect : Instruction → Nat × Nat
  | .push _ | .pushParam _ => (0, 1)
  | .pop | .jump => (1, 0)
  | .sload | .mload | .hash256 => (1, 1)
  | .sstore | .mstore | .jumpi => (2, 0)
  | .binary _ => (2, 1)

/-- The instruction with a mnemonic. A constant given to an instruction that carries none counts for
nothing. -/
def ofParts (name : String) (value : Option Word) : Except InstructionError Instruction :=
  let needed (make : Word → Instruction) : Except InstructionError Instruction :=
    match value with
    | some w => .ok (make w)
    | none => .error (.missingOperand name)
  match name with
  | "PUSH" => needed .push
  | "PUSH_PARAM" => needed .pushParam
  | "POP" => .ok .pop
  | "SLOAD" => .ok .sload
  | "SSTORE" => .ok .sstore
  | "MLOAD" => .ok .mload
  | "MSTORE" => .ok .mstore
  | "HASH256" => .ok .hash256
  | "ADD" => .ok (.binary .add)
  | "SUBTRACT" => .ok (.binary .subtract)
  | "MULTIPLY" => .ok (.binary .multiply)
  | "DIVIDE" => .ok (.binary .divide)
  | "MODULO" => .ok (.binary .modulo)
  | "AND" => .ok (.binary .and)
  | "OR" => .ok (.binary .or)
  | "EQUAL" => .ok (.binary .equal)
  | "NOT_EQUAL" => .ok (.binary .notEqual)
  | "GREATER_THAN" => .ok (.binary .greater)
  | "LESS_THAN" => .ok (.binary .less)
  | "GREATER_THAN_EQUAL" => .ok (.binary .greaterEqual)
  | "LESS_THAN_EQUAL" => .ok (.binary .lessEqual)
  | "JUMP" => .ok .jump
  | "JUMPI" => .ok .jumpi
  | _ => .error (.unknownOpcode name)

/-- The written form: the mnemonic and the constant, if there is one. -/
def display (i : Instruction) : String :=
  match i.operand? with
  | some w => i.mnemonic ++ " " ++ w.describe
  | none => i.mnemonic

/-- The diagnostic name of an operator's instruction. -/
def operatorName : Operator → String
  | .add => "Add"
  | .subtract => "Subtract"
  | .multiply => "Multiply"
  | .divide => "Divide"
  | .modulo => "Modulo"
  | .equal => "Equal"
  | .notEqual => "NotEqual"
  | .less => "LessThan"
  | .greater => "GreaterThan"
  | .lessEqual => "LessThanEqual"
  | .greaterEqual => "GreaterThanEqual"
  | .and => "And"
  | .or => "Or"

/-- The diagnostic form. -/
def debug : Instruction → String
  | .push w => s!"Push({w.debug})"
  | .pushParam w => s!"PushParam({w.debug})"
  | .pop => "Pop"
  | .sload => "Sload"
  | .sstore => "Sstore"
  | .mload => "Mload"
  | .mstore => "Mstore"
  | .hash256 => "Hash256"
  | .binary op => operatorName op
  | .jump => "Jump"
  | .jumpi => "Jumpi"

end Instruction

end Covenant
