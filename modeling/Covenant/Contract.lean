import Covenant.Operator

/-!
# Contracts

The tree of a contract as written: storage declarations and functions. Expressions are kept flat, as
the terms and the operators between them in source order; the tree that precedence makes of them
belongs to compilation.

A contract value need not be one that some source text has. In particular the counts of terms and
operators of an expression may disagree.
-/

namespace Covenant

/-- A constant. -/
inductive Literal where
  | int (n : Int)
  | bool (b : Bool)
  deriving DecidableEq

/-- An operand: a constant, a name, or an entry of a mapping. -/
inductive Term where
  | literal (value : Literal)
  | ident (name : String)
  | index (base : String) (keys : List Term)

/-- Operands and the operators between them, in source order. -/
structure Expression where
  terms : List Term
  operators : List Operator

/-- `target = value`. -/
structure Assignment where
  target : Expression
  value : Expression

/-- `var name = value` inside a function. -/
structure LocalVariable where
  name : String
  value : Expression

/-- A statement of a function body. -/
inductive Statement where
  | returns (value : Expression)
  | assign (assignment : Assignment)
  | declare (variable_ : LocalVariable)
  | branch (condition : Expression) (thenBody : List Statement)
      (elseBody : Option (List Statement))
  | loop (start : LocalVariable) (condition : Expression) (step : Assignment)
      (body : List Statement)

/-- A parameter and its type name. -/
structure Parameter where
  name : String
  type : String
  deriving DecidableEq

/-- A storage variable with its initial value. -/
structure VariableDeclaration where
  name : String
  type : String
  value : Literal
  deriving DecidableEq

/-- A mapping with its key types, the outermost first. -/
structure MappingDeclaration where
  name : String
  keyTypes : List String
  valueType : String
  deriving DecidableEq

/-- A function. -/
structure FunctionDeclaration where
  name : String
  parameters : List Parameter
  returnType : Option String
  body : List Statement

/-- A declaration of a contract. -/
inductive Declaration where
  | variable_ (declaration : VariableDeclaration)
  | mapping (declaration : MappingDeclaration)
  | function (declaration : FunctionDeclaration)

/-- A contract: its name and its declarations in source order. -/
structure Contract where
  name : String
  declarations : List Declaration

/-- The written form of a constant. -/
def Literal.display : Literal → String
  | .int n => toString n
  | .bool b => toString b

mutual

/-- The written form of an operand. -/
def Term.display : Term → String
  | .literal value => value.display
  | .ident name => name
  | .index base keys => base ++ Term.displayKeys keys

/-- The written form of the keys of a mapping entry, each in square brackets. -/
def Term.displayKeys : List Term → String
  | [] => ""
  | key :: rest => "[" ++ key.display ++ "]" ++ Term.displayKeys rest

end

namespace Expression

/-- The operands after the first, each with the operator before it as far as there is one. -/
def displayRest : List Operator → List Term → String
  | _, [] => ""
  | [], term :: rest => term.display ++ displayRest [] rest
  | op :: ops, term :: rest => " " ++ op.symbol ++ " " ++ term.display ++ displayRest ops rest

/-- The written form of an expression. -/
def display (e : Expression) : String :=
  match e.terms with
  | [] => ""
  | first :: rest => first.display ++ displayRest e.operators rest

/-- The operand of an expression that has one operand and no operator. -/
def singleTerm? (e : Expression) : Option Term :=
  match e.terms, e.operators with
  | [term], [] => some term
  | _, _ => none

end Expression

/-- The name a declaration introduces. -/
def Declaration.name : Declaration → String
  | .variable_ d => d.name
  | .mapping d => d.name
  | .function d => d.name

namespace Contract

/-- The functions of a contract, in source order. -/
def functions (c : Contract) : List FunctionDeclaration :=
  c.declarations.filterMap fun
    | .function d => some d
    | _ => none

/-- The index of the first function with a name. -/
def functionIndex? (c : Contract) (name : String) : Option Nat :=
  c.functions.findIdx? fun f => f.name == name

end Contract

end Covenant
