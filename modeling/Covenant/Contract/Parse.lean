import Covenant.Contract
import Covenant.Contract.Cursor
import Covenant.Text.Decimal

/-!
# The grammar

Readers for the parts of a contract, from constants up to the whole. Every loop over tokens is
bounded by the number of tokens still to come, which each round reduces; blocks and chains of
`else if` nest only so deep, and their readers recurse on the levels that are left.

    contract     contract NAME { declaration* } EOF
    declaration  var NAME : TYPE = literal
               | mapping ( TYPE => ... ) NAME
               | func NAME ( parameters ) (-> TYPE)? block
    statement    return expression | if | for | var NAME (: TYPE)? = expression
               | expression = expression
    expression   term (OPERATOR term)*
    term         NUMBER | - NUMBER | true | false | NAME ([ term ])*

* `Reader.term`, `Reader.expression` and `Reader.statement` are the readers of these parts.
* `Contract.parse` reads a list of tokens as one contract.
-/

namespace Covenant

namespace Reader

/-- The number token that comes next, negated on demand. -/
def number (negative : Bool) : Reader Literal := do
  match ← peek with
  | .number digits =>
    match Text.readInt? digits with
    | some n =>
      advance
      return .int (if negative then -n else n)
    | none => fail .decimalNumber
  | _ => fail .number

/-- A constant, if one comes next. A minus sign belongs to a number directly after it. -/
def literal? : Reader (Option Literal) := do
  match ← peek with
  | .number _ => some <$> number false
  | .operator .subtract =>
    match ← peekSecond with
    | .number _ =>
      advance
      some <$> number true
    | _ => return none
  | token =>
    if token.isKeyword .true_ then
      advance
      return some (.bool true)
    else if token.isKeyword .false_ then
      advance
      return some (.bool false)
    else return none

/-- A constant. -/
def literal : Reader Literal := do
  match ← literal? with
  | some value => return value
  | none => fail .literal

/-! ### Operands and expressions -/

mutual

/-- An operand, within a bound on the tokens to read. -/
def termWithin : Nat → Reader Term
  | 0 => fail .expression
  | bound + 1 => do
    match ← literal? with
    | some value => return .literal value
    | none =>
      let base ← expectName .expression
      match ← keysWithin bound with
      | [] => return .ident base
      | key :: keys => return .index base (key :: keys)

/-- Any number of operands in square brackets, within a bound on the tokens to read. -/
def keysWithin : Nat → Reader (List Term)
  | 0 => return []
  | bound + 1 => do
    if ← sees (.opens .square) then
      advance
      let key ← termWithin bound
      expect (.closes .square)
      let keys ← keysWithin bound
      return key :: keys
    else return []

end

/-- An operand: a constant, or a name with any number of keys. -/
def term : Reader Term := do
  termWithin ((← remaining) + 1)

/-- Pairs of an operator and an operand, within a bound on their number. -/
def operandsWithin : Nat → Reader (List (Operator × Term))
  | 0 => return []
  | bound + 1 => do
    match (← peek).operator? with
    | some op =>
      advance
      let operand ← term
      let rest ← operandsWithin bound
      return (op, operand) :: rest
    | none => return []

/-- Operands with an operator between each two. -/
def expression : Reader Expression := do
  let first ← term
  let rest ← operandsWithin (← remaining)
  return ⟨first :: rest.map Prod.snd, rest.map Prod.fst⟩

/-! ### Statements -/

/-- `target = value`. -/
def assignment : Reader Assignment := do
  let target ← expression
  expect .assign
  let value ← expression
  return ⟨target, value⟩

/-- The rest of `var name (: type)? = value` from the keyword on. The type is not kept. -/
def localVariable : Reader LocalVariable := do
  advance
  let name ← expectName .variableName
  if ← sees .colon then
    advance
    let _ ← expectName .typeName
  expect .assign
  let value ← expression
  return ⟨name, value⟩

/-- The rest of a branch from the keyword `if` on. `block` reads a block and `chained` a branch that
follows an `else`. -/
def branch (block : Reader (List Statement)) (chained : Reader Statement) : Reader Statement := do
  advance
  let condition ← expression
  let thenBody ← block
  if ← seesKeyword .else_ then
    advance
    if ← seesKeyword .if_ then
      let next ← chained
      return .branch condition thenBody (some [next])
    else
      let elseBody ← block
      return .branch condition thenBody (some elseBody)
  else return .branch condition thenBody none

/-- The rest of a loop from the keyword `for` on. -/
def loop (block : Reader (List Statement)) : Reader Statement := do
  advance
  if ← seesKeyword .var then
    let start ← localVariable
    expect .semicolon
    let condition ← expression
    expect .semicolon
    let step ← assignment
    let body ← block
    return .loop start condition step body
  else fail .loopVariable

/-- A statement whose blocks are read by `block` and whose chained branches by `chained`. -/
def statement (block : Reader (List Statement)) (chained : Reader Statement) :
    Reader Statement := do
  if ← seesKeyword .return_ then
    advance
    return .returns (← expression)
  else if ← seesKeyword .if_ then branch block chained
  else if ← seesKeyword .for_ then loop block
  else if ← seesKeyword .var then return .declare (← localVariable)
  else return .assign (← assignment)

/-- Statements up to a closing brace, which is left, within a bound on their number. -/
def statementsWithin (next : Reader Statement) : Nat → Reader (List Statement)
  | 0 => fail (.token (.closes .brace))
  | bound + 1 => do
    if ← sees (.closes .brace) then return []
    else if ← sees .eof then fail (.token (.closes .brace))
    else
      let first ← next
      let rest ← statementsWithin next bound
      return first :: rest

/-- Statements between braces. -/
def braced (next : Reader Statement) : Reader (List Statement) := do
  expect (.opens .brace)
  let body ← statementsWithin next ((← remaining) + 1)
  expect (.closes .brace)
  return body

mutual

/-- A block, with so many levels left of a nesting limit. -/
def block (limit : Nat) : (levels : Nat) → Reader (List Statement)
  | 0 => fail (.depth limit)
  | levels + 1 => braced (statement (block limit levels) (chainedBranch limit levels))

/-- A branch that follows an `else`, one level deeper, with so many levels left. -/
def chainedBranch (limit : Nat) : (levels : Nat) → Reader Statement
  | 0 => fail (.depth limit)
  | levels + 1 => branch (block limit levels) (chainedBranch limit levels)

end

/-! ### Declarations -/

/-- The rest of a storage variable from the keyword `var` on. -/
def variableDeclaration : Reader VariableDeclaration := do
  advance
  let name ← expectName .variableName
  expect .colon
  let type ← expectName .typeName
  expect .assign
  let value ← literal
  return ⟨name, type, value⟩

/-- The key types of a mapping type, the outermost first, and its value type, up to the closing
parentheses. Within a bound on the number of key types. -/
def mappingTypesWithin : Nat → Reader (List String × String)
  | 0 => fail (.token (.opens .paren))
  | bound + 1 => do
    expect (.opens .paren)
    let key ← expectName .keyType
    expect .fatArrow
    if ← seesKeyword .mapping then
      advance
      let (keys, value) ← mappingTypesWithin bound
      return (key :: keys, value)
    else
      let value ← expectName .valueType
      return ([key], value)

/-- So many closing parentheses. -/
def closingParens : Nat → Reader Unit
  | 0 => return
  | count + 1 => do
    expect (.closes .paren)
    closingParens count

/-- The rest of a mapping from the keyword `mapping` on. -/
def mappingDeclaration : Reader MappingDeclaration := do
  advance
  let (keys, value) ← mappingTypesWithin ((← remaining) + 1)
  closingParens keys.length
  let name ← expectName .mappingName
  return ⟨name, keys, value⟩

/-- One or more parameters with commas between them, within a bound on their number. -/
def parametersWithin : Nat → Reader (List Parameter)
  | 0 => fail .parameterName
  | bound + 1 => do
    let name ← expectName .parameterName
    expect .colon
    let type ← expectName .parameterType
    if ← sees .comma then
      advance
      let rest ← parametersWithin bound
      return ⟨name, type⟩ :: rest
    else return [⟨name, type⟩]

/-- Parameters up to a closing parenthesis, which is left. -/
def parameters : Reader (List Parameter) := do
  if ← sees (.closes .paren) then return []
  else parametersWithin ((← remaining) + 1)

/-- A return type, if there is one. -/
def returnType : Reader (Option String) := do
  if ← sees .arrow then
    advance
    return some (← expectName .returnType)
  else return none

/-- The rest of a function from the keyword `func` on. -/
def functionDeclaration (limit : Nat) : Reader FunctionDeclaration := do
  advance
  let name ← expectName .functionName
  expect (.opens .paren)
  let params ← parameters
  expect (.closes .paren)
  let result ← returnType
  let body ← block limit limit
  return ⟨name, params, result, body⟩

/-- A declaration. -/
def declaration (limit : Nat) : Reader Declaration := do
  if ← seesKeyword .var then return .variable_ (← variableDeclaration)
  else if ← seesKeyword .mapping then return .mapping (← mappingDeclaration)
  else if ← seesKeyword .func then return .function (← functionDeclaration limit)
  else fail .declaration

/-- Declarations up to a closing brace, which is left, within a bound on their number. -/
def declarationsWithin (limit : Nat) : Nat → Reader (List Declaration)
  | 0 => fail .declaration
  | bound + 1 => do
    if ← sees (.closes .brace) then return []
    else
      let first ← declaration limit
      let rest ← declarationsWithin limit bound
      return first :: rest

/-- A contract and nothing after it. -/
def contract (limit : Nat) : Reader Contract := do
  expectKeyword .contract
  let name ← expectName .contractName
  expect (.opens .brace)
  let declarations ← declarationsWithin limit ((← remaining) + 1)
  expect (.closes .brace)
  expect .eof
  return ⟨name, declarations⟩

end Reader

namespace Contract

/-- How deep blocks and chains of `else if` nest unless said otherwise. -/
def defaultDepth : Nat := 128

/-- Reads a list of tokens as one contract. `limit` bounds the nesting of blocks. -/
def parse (tokens : List Located) (limit : Nat := defaultDepth) : Except ParseError Contract :=
  (Reader.contract limit ⟨tokens, .start⟩).map Prod.fst

end Contract

end Covenant
