import Covenant.Contract
import Covenant.Outline
import Covenant.Text.Quoted

/-!
# Outlines of contracts

The tree of a contract as an `Outline`, for people who want to see what was read.
-/

namespace Covenant

/-- A text as a leaf, in quotes. -/
def Outline.text (s : String) : Outline := .leaf (Text.quoted s)

/-- A value that may be missing. -/
def Outline.option : Option Outline → Outline
  | none => .leaf "None"
  | some part => .tuple "Some" [part]

/-- The outline of a constant. -/
def Literal.outline : Literal → Outline
  | .int n => .tuple "Integer" [.leaf (toString n)]
  | .bool b => .tuple "Bool" [.leaf (toString b)]

mutual

/-- The outline of an operand. -/
def Term.outline : Term → Outline
  | .literal value => .tuple "Literal" [value.outline]
  | .ident name => .tuple "Ident" [.text name]
  | .index base keys => .record "Index" [("base", .text base), ("keys", .list (Term.outlines keys))]

/-- The outlines of several operands. -/
def Term.outlines : List Term → List Outline
  | [] => []
  | term :: rest => term.outline :: Term.outlines rest

end

/-- The diagnostic name of an operator. -/
def Operator.name : Operator → String
  | .add => "Add"
  | .subtract => "Subtract"
  | .multiply => "Multiply"
  | .divide => "Divide"
  | .modulo => "Modulo"
  | .equal => "Equal"
  | .notEqual => "NotEqual"
  | .less => "Less"
  | .greater => "Greater"
  | .lessEqual => "LessEqual"
  | .greaterEqual => "GreaterEqual"
  | .and => "And"
  | .or => "Or"

/-- The outline of an expression. -/
def Expression.outline (e : Expression) : Outline :=
  .record "Expression"
    [("terms", .list (Term.outlines e.terms)),
     ("operators", .list (e.operators.map fun op => .leaf op.name))]

/-- The outline of an assignment. -/
def Assignment.outline (a : Assignment) : Outline :=
  .record "Assignment" [("target", a.target.outline), ("value", a.value.outline)]

/-- The outline of a local variable. -/
def LocalVariable.outline (v : LocalVariable) : Outline :=
  .record "LocalVar" [("name", .text v.name), ("value", v.value.outline)]

mutual

/-- The outline of a statement. -/
def Statement.outline : Statement → Outline
  | .returns value => .tuple "Return" [value.outline]
  | .assign assignment => .tuple "Assignment" [assignment.outline]
  | .declare v => .tuple "LocalVar" [v.outline]
  | .branch condition thenBody elseBody =>
    .record "If"
      [("condition", condition.outline),
       ("then_body", .list (Statement.outlines thenBody)),
       ("else_body", .option (Statement.elseOutline elseBody))]
  | .loop start condition step body =>
    .record "For"
      [("init", start.outline), ("condition", condition.outline), ("step", step.outline),
       ("body", .list (Statement.outlines body))]

/-- The outlines of several statements. -/
def Statement.outlines : List Statement → List Outline
  | [] => []
  | statement :: rest => statement.outline :: Statement.outlines rest

/-- The outline of the second arm of a branch. -/
def Statement.elseOutline : Option (List Statement) → Option Outline
  | none => none
  | some body => some (.list (Statement.outlines body))

end

/-- The outline of a declaration. -/
def Declaration.outline : Declaration → Outline
  | .variable_ d =>
    .tuple "Variable"
      [.record "VariableDeclaration"
        [("name", .text d.name), ("ty", .text d.type), ("value", d.value.outline)]]
  | .mapping d =>
    .tuple "Mapping"
      [.record "MappingDeclaration"
        [("name", .text d.name), ("key_types", .list (d.keyTypes.map .text)),
         ("value_type", .text d.valueType)]]
  | .function d =>
    .tuple "Function"
      [.record "FunctionDeclaration"
        [("name", .text d.name),
         ("params", .list (d.parameters.map fun p =>
           .record "Param" [("name", .text p.name), ("ty", .text p.type)])),
         ("return_type", .option (d.returnType.map .text)),
         ("body", .list (Statement.outlines d.body))]]

/-- The outline of a contract. -/
def Contract.outline (c : Contract) : Outline :=
  .record "Contract"
    [("name", .text c.name), ("declarations", .list (c.declarations.map Declaration.outline))]

end Covenant
