import Covenant.Compile.Statement
import Covenant.Contract.Parse
import Covenant.Program

/-!
# Compilation

From a contract to its program. Storage slots go to variables and mappings in the order of their
declarations, function indices to functions in theirs. The checks come in a fixed order: the names
of all declarations, the initial values, then one function after the other, its parameters before
its body.

* `Contract.compile` compiles a contract.
* `compileSource` compiles the text of one.
-/

namespace Covenant

namespace Compile

/-- The first name of a list that occurred before it. -/
def firstRepeat? (seen : List String) : List String → Option String
  | [] => none
  | name :: rest => if seen.contains name then some name else firstRepeat? (name :: seen) rest

/-- The code that stores the initial values, and the slots of all storage declarations. -/
def initialization (slots : Numbering) :
    List Declaration → Except CompileError (List Instruction × Numbering)
  | [] => .ok ([], slots)
  | .variable_ d :: rest => do
    let value ← literalWord d.value
    let (slot, slots) := slots.number d.name
    let (code, slots) ← initialization slots rest
    return (.push value :: pushNat slot :: .sstore :: code, slots)
  | .mapping d :: rest => initialization (slots.number d.name).2 rest
  | .function _ :: rest => initialization slots rest

/-- Checks that parameters have names of their own. `seen` are the names of those before. -/
def checkParameters (scope : Scope) (function : String) (seen : List String) :
    List Parameter → Except CompileError Unit
  | [] => .ok ()
  | p :: rest =>
    if seen.contains p.name then .error (.duplicateParameter function p.name)
    else if (scope.cell? p.name).isSome then .error (.shadowedParameter function p.name)
    else checkParameters scope function (p.name :: seen) rest

/-- The memory keys of parameters. -/
def parameterWords : List Parameter → Except CompileError (List Word)
  | [] => .ok []
  | p :: rest => do
    let key ← textWord p.name
    let keys ← parameterWords rest
    return key :: keys

/-- The code of a function. -/
def function (scope : Scope) (f : FunctionDeclaration) : Except CompileError FunctionCode := do
  checkParameters scope f.name [] f.parameters
  let parameters ← parameterWords f.parameters
  let code ← body scope f.body
  return ⟨parameters, code⟩

/-- The codes of functions in turn. -/
def functions (scope : Scope) :
    List FunctionDeclaration → Except CompileError (List FunctionCode)
  | [] => .ok []
  | first :: rest => do
    let code ← function scope first
    let codes ← functions scope rest
    return code :: codes

end Compile

/-- Code lists numbered from zero. -/
def FunctionCode.table (codes : List FunctionCode) : Table Nat FunctionCode :=
  Table.ofList ((List.range codes.length).zip codes)

namespace Contract

/-- Compiles a contract. -/
def compile (c : Contract) : Except CompileError Program :=
  match Compile.firstRepeat? [] (c.declarations.map Declaration.name) with
  | some name => .error (.duplicateDeclaration name)
  | none => do
    let (initialization, slots) ← Compile.initialization {} c.declarations
    let scope : Scope := ⟨c.declarations.filterMap Declaration.cell?, slots⟩
    let codes ← Compile.functions scope c.functions
    return ⟨initialization, FunctionCode.table codes⟩

/-- Reads the text of a contract. -/
def ofSource (source : String) : Except CompileError Contract :=
  match Token.scan source with
  | .error e => .error (.lex e)
  | .ok tokens => (parse tokens).mapError .parse

end Contract

/-- Compiles the text of a contract. -/
def compileSource (source : String) : Except CompileError Program := do
  let contract ← Contract.ofSource source
  contract.compile

end Covenant
