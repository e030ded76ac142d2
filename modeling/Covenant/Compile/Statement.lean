import Covenant.Compile.Expression

/-!
# Code for statements

A statement's code leaves the stack as it found it, unless the statement returns. Code is placed
from a known position on, so the targets of the jumps inside a statement are sums of lengths; only
the end of the whole body is not known yet, and a jump there stands as `Symbol.pushEnd` until the
body is complete.

    if      PUSH else; condition; JUMPI; then [; PUSH end; JUMP; else]
    for     start; PUSH exit; condition; JUMPI; body; step; PUSH head; JUMP
    return  value; PUSH end of body; JUMP

`JUMPI` jumps when the condition is zero. A `return` that ends the body needs no jump.

* `Compile.statement` and `Compile.block` give the code of statements and the locals after them.
* `Compile.body` is the code of a function body.
-/

namespace Covenant

namespace Compile

/-- An instruction, or one that puts the end of the body on the stack. -/
inductive Symbol where
  | instruction (i : Instruction)
  | pushEnd
  deriving DecidableEq

/-- Instructions as symbols. -/
def plain (code : List Instruction) : List Symbol := code.map .instruction

/-- The instruction a symbol stands for in a body of the given length. -/
def Symbol.settle (length : Nat) : Symbol → Instruction
  | .instruction i => i
  | .pushEnd => pushNat length

/-- The instructions of a complete body. -/
def settle (code : List Symbol) : List Instruction := code.map (Symbol.settle code.length)

/-- The code of `var name = value`, and the locals after it. The name counts as declared only after
its value. -/
def localVariable (scope : Scope) (locals : Numbering) (v : LocalVariable) :
    Except CompileError (List Instruction × Numbering) := do
  let value ← expression scope locals v.value
  let (slot, locals) := locals.number v.name
  return (value ++ [pushNat slot, .mstore], locals)

/-- The code that stores the word on top of the stack in a target. -/
def store (scope : Scope) (locals : Numbering) (target : Expression) :
    Term → Except CompileError (List Instruction)
  | .literal _ => .error (.invalidTarget target.display)
  | .ident name => writeName scope locals name
  | .index base keys => do
    let code ← address scope locals base keys
    return code ++ [.sstore]

/-- The code of an assignment: the value, then the place it goes to. -/
def assignment (scope : Scope) (locals : Numbering) (a : Assignment) :
    Except CompileError (List Instruction) :=
  match a.target.singleTerm? with
  | none => .error (.invalidTarget a.target.display)
  | some target => do
    let value ← expression scope locals a.value
    let rest ← store scope locals a.target target
    return value ++ rest

mutual

/-- The code of a statement from a position on, and the locals after it. -/
def statement (scope : Scope) (position : Nat) (locals : Numbering) :
    Statement → Except CompileError (List Symbol × Numbering)
  | .returns value => do
    let code ← expression scope locals value
    return (plain code ++ [.pushEnd, .instruction .jump], locals)
  | .assign a => do
    let code ← assignment scope locals a
    return (plain code, locals)
  | .declare v => do
    let (code, locals) ← localVariable scope locals v
    return (plain code, locals)
  | .branch condition thenBody elseBody => do
    let test ← expression scope locals condition
    let thenStart := position + test.length + 2
    let (thenCode, locals) ← block scope thenStart locals thenBody
    let (elseCode, skip, locals) ← elseArm scope (thenStart + thenCode.length) locals elseBody
    let elseStart := thenStart + thenCode.length + skip.length
    return (plain (pushNat elseStart :: test ++ [.jumpi]) ++ thenCode ++ plain skip ++ elseCode,
      locals)
  | .loop start condition step body => do
    let (startCode, locals) ← localVariable scope locals start
    let head := position + startCode.length
    let test ← expression scope locals condition
    let bodyStart := head + test.length + 2
    let (bodyCode, locals) ← block scope bodyStart locals body
    let stepCode ← assignment scope locals step
    let exit := bodyStart + bodyCode.length + stepCode.length + 2
    return (plain (startCode ++ pushNat exit :: test ++ [.jumpi]) ++ bodyCode
      ++ plain (stepCode ++ [pushNat head, .jump]), locals)

/-- The code of statements in turn, from a position on, and the locals after them. -/
def block (scope : Scope) (position : Nat) (locals : Numbering) :
    List Statement → Except CompileError (List Symbol × Numbering)
  | [] => .ok ([], locals)
  | first :: rest => do
    let (code, locals) ← statement scope position locals first
    let (more, locals) ← block scope (position + code.length) locals rest
    return (code ++ more, locals)

/-- The code of the second arm of a branch, the jump over it that ends the first arm, which stands
at the position, and the locals after it. -/
def elseArm (scope : Scope) (position : Nat) (locals : Numbering) :
    Option (List Statement) → Except CompileError (List Symbol × List Instruction × Numbering)
  | none => .ok ([], [], locals)
  | some body => do
    let (code, locals) ← block scope (position + 2) locals body
    return (code, [pushNat (position + 2 + code.length), .jump], locals)

end

/-- The code of a function body from a position on, the end of the body still open. A value returned
at the very end is left on the stack without a jump. -/
def bodyFrom (scope : Scope) (position : Nat) (locals : Numbering) :
    List Statement → Except CompileError (List Symbol)
  | [] => .ok []
  | [.returns value] => do
    let code ← expression scope locals value
    return plain code
  | first :: rest => do
    let (code, locals) ← statement scope position locals first
    let more ← bodyFrom scope (position + code.length) locals rest
    return code ++ more

/-- The code of a function body. -/
def body (scope : Scope) (statements : List Statement) : Except CompileError (List Instruction) :=
  (bodyFrom scope 0 {} statements).map settle

end Compile

end Covenant
