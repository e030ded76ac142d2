import Covenant.Compile.Scope
import Covenant.Instruction

/-!
# Code for expressions

An operand's code leaves one word on the stack. The code of an expression is the code of its
operands in source order with the operators worked in after their right operands, so that tighter
operators come before looser ones and equal ones from left to right.

A mapping entry is a storage cell. Its address starts from the slot of the mapping; each key is
added to the address so far and the sum is hashed.

* `Compile.term` and `Compile.address` are the code of an operand and of an entry's address.
* `Compile.weave` orders operands and operators; `Compile.expression` is the code of an expression.
-/

namespace Covenant

namespace Compile

/-- Encodes a text as a word, as part of a compilation. -/
def textWord (text : String) : Except CompileError Word :=
  (Word.ofText text).mapError .encoding

/-- The word of a constant. -/
def literalWord : Literal → Except CompileError Word
  | .int n => (Word.ofSafeInt n).mapError .encoding
  | .bool b => .ok (Word.ofBool b)

/-- The slot of a mapping that is used with so many keys. -/
def mappingSlot (scope : Scope) (base : String) (keys : Nat) : Except CompileError Nat :=
  match scope.cell? base with
  | some (.mapping depth) =>
    if keys = depth then .ok (scope.slot base) else .error (.mappingArity base depth keys)
  | _ => .error (.unknownMapping base)

/-- Puts a number on the stack. -/
def pushNat (n : Nat) : Instruction := .push (Word.ofNat n)

/-- The code that reads a name. -/
def readName (scope : Scope) (locals : Numbering) (name : String) :
    Except CompileError (List Instruction) :=
  match scope.resolve locals name with
  | .memory slot => .ok [pushNat slot, .mload]
  | .storage slot => .ok [pushNat slot, .sload]
  | .mapping _ depth => .error (.mappingArity name depth 0)
  | .parameter => do
    let key ← textWord name
    return [.pushParam key]

/-- The code that writes the word on top of the stack to a name. -/
def writeName (scope : Scope) (locals : Numbering) (name : String) :
    Except CompileError (List Instruction) :=
  match scope.resolve locals name with
  | .memory slot => .ok [pushNat slot, .mstore]
  | .storage slot => .ok [pushNat slot, .sstore]
  | .mapping _ depth => .error (.mappingArity name depth 0)
  | .parameter => do
    let key ← textWord name
    return [.push key, .mstore]

mutual

/-- The code of an operand. -/
def term (scope : Scope) (locals : Numbering) : Term → Except CompileError (List Instruction)
  | .literal value => do
    let w ← literalWord value
    return [.push w]
  | .ident name => readName scope locals name
  | .index base keys => do
    let slot ← mappingSlot scope base keys.length
    let rest ← keyCode scope locals keys
    return pushNat slot :: rest ++ [.sload]

/-- The code that takes an address through the keys of an entry. -/
def keyCode (scope : Scope) (locals : Numbering) :
    List Term → Except CompileError (List Instruction)
  | [] => .ok []
  | key :: rest => do
    let code ← term scope locals key
    let more ← keyCode scope locals rest
    return code ++ .binary .add :: .hash256 :: more

end

/-- The code of the address of a mapping entry. -/
def address (scope : Scope) (locals : Numbering) (base : String) (keys : List Term) :
    Except CompileError (List Instruction) := do
  let slot ← mappingSlot scope base keys.length
  let rest ← keyCode scope locals keys
  return pushNat slot :: rest

/-- Works pending operators, the latest first, into the code of the operands to come. Before an
operator is put off, those are emitted that bind at least as tightly. -/
def weave : List Operator → List (Operator × List Instruction) → List Instruction
  | pending, [] => pending.map .binary
  | pending, (op, code) :: rest =>
    let (due, later) := pending.span fun top => op.precedence ≤ top.precedence
    due.map .binary ++ code ++ weave (op :: later) rest

/-- The codes of several operands. -/
def terms (scope : Scope) (locals : Numbering) :
    List Term → Except CompileError (List (List Instruction))
  | [] => .ok []
  | first :: rest => do
    let code ← term scope locals first
    let codes ← terms scope locals rest
    return code :: codes

/-- The code of an expression. -/
def expression (scope : Scope) (locals : Numbering) (e : Expression) :
    Except CompileError (List Instruction) :=
  if e.terms.length = e.operators.length + 1 then do
    match ← terms scope locals e.terms with
    | [] => .error (.malformedExpression e.terms.length e.operators.length)
    | first :: rest => return first ++ weave [] (e.operators.zip rest)
  else .error (.malformedExpression e.terms.length e.operators.length)

end Compile

end Covenant
