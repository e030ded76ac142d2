import Covenant.Contract.Parse

/-!
# The grammar as relations

Which lists of tokens are a contract, and which contract they are, without a reader: one relation
for every part of the grammar, one rule for every way to write it.

    contract     contract NAME { declaration* }
    declaration  var NAME : TYPE = literal
               | mapping mapping-type NAME
               | func NAME ( parameters ) (-> TYPE)? block
    statement    return expression | branch | var NAME (: TYPE)? = expression
               | for var NAME (: TYPE)? = expression ; expression ; assignment block
               | assignment
    branch       if expression block (else block | else branch)?
    assignment   expression = expression
    expression   term (OPERATOR term)*
    term         NUMBER | - NUMBER | true | false | NAME ([ term ])*

Statements, branches and blocks come with their depth: a block is one deeper than its statements,
and a branch after `else` one deeper than it is alone.

No mark stands between two statements, and `-` is an operator as well as the beginning of a number.
So the relations have a parameter, which says when a statement may be followed by certain tokens:
`Grammar.anywhere` leaves it free, and `Grammar.Apart` asks for no `-` right after a statement that
ends with an expression.
-/

namespace Covenant

/-- The token of a keyword. -/
def Keyword.token (keyword : Keyword) : Token := .ident keyword.text

namespace Grammar

/-- A word that no keyword takes. -/
def Name (name : String) : Prop := ∀ keyword : Keyword, name ≠ keyword.text

/-! ### Operands and expressions -/

/-- A constant. A minus sign belongs to the number directly after it. -/
inductive Literal : List Token → Covenant.Literal → Prop
  | number {digits : String} {n : Int} (h : Text.readInt? digits = some n) :
    Literal [.number digits] (.int n)
  | negative {digits : String} {n : Int} (h : Text.readInt? digits = some n) :
    Literal [.operator .subtract, .number digits] (.int (-n))
  | true_ : Literal [Keyword.true_.token] (.bool true)
  | false_ : Literal [Keyword.false_.token] (.bool false)

mutual

/-- An operand. -/
inductive Term : List Token → Covenant.Term → Prop
  | literal {ts : List Token} {value : Covenant.Literal} (h : Literal ts value) :
    Term ts (.literal value)
  | ident {name : String} (h : Name name) : Term [.ident name] (.ident name)
  | index {ts : List Token} {base : String} {key : Covenant.Term} {keys : List Covenant.Term}
    (hbase : Name base) (hkeys : Keys ts (key :: keys)) :
    Term (.ident base :: ts) (.index base (key :: keys))

/-- Any number of operands in square brackets. -/
inductive Keys : List Token → List Covenant.Term → Prop
  | nil : Keys [] []
  | cons {ts us : List Token} {key : Covenant.Term} {keys : List Covenant.Term}
    (hkey : Term ts key) (hkeys : Keys us keys) :
    Keys (.opens .square :: ts ++ .closes .square :: us) (key :: keys)

end

/-- Any number of operands with an operator before each. -/
inductive Operands : List Token → List (Operator × Covenant.Term) → Prop
  | nil : Operands [] []
  | cons {op : Operator} {ts us : List Token} {operand : Covenant.Term}
    {rest : List (Operator × Covenant.Term)} (hoperand : Term ts operand)
    (hrest : Operands us rest) :
    Operands (.operator op :: ts ++ us) ((op, operand) :: rest)

/-- Operands with an operator between each two, kept flat. -/
inductive Expression : List Token → Covenant.Expression → Prop
  | mk {ts us : List Token} {first : Covenant.Term} {rest : List (Operator × Covenant.Term)}
    (hfirst : Term ts first) (hrest : Operands us rest) :
    Expression (ts ++ us) ⟨first :: rest.map Prod.snd, rest.map Prod.fst⟩

/-! ### Statements -/

/-- `target = value`. -/
inductive Assignment : List Token → Covenant.Assignment → Prop
  | mk {ts us : List Token} {target value : Covenant.Expression} (htarget : Expression ts target)
    (hvalue : Expression us value) : Assignment (ts ++ .assign :: us) ⟨target, value⟩

/-- `: type`, or nothing. -/
inductive Annotation : List Token → Prop
  | none : Annotation []
  | type {type : String} (htype : Name type) : Annotation [.colon, .ident type]

/-- `var name (: type)? = value`. The type is not kept. -/
inductive LocalVariable : List Token → Covenant.LocalVariable → Prop
  | mk {ts us : List Token} {name : String} {value : Covenant.Expression} (hname : Name name)
    (htype : Annotation ts) (hvalue : Expression us value) :
    LocalVariable (Keyword.var.token :: .ident name :: ts ++ .assign :: us) ⟨name, value⟩

/-- When a statement may be followed by tokens. -/
abbrev Separation := Covenant.Statement → List Token → Prop

mutual

/-- A statement. -/
inductive Statement (separated : Separation) : Nat → List Token → Covenant.Statement → Prop
  | returns {ts : List Token} {value : Covenant.Expression} (hvalue : Expression ts value) :
    Statement separated 0 (Keyword.return_.token :: ts) (.returns value)
  | assign {ts : List Token} {a : Covenant.Assignment} (ha : Assignment ts a) :
    Statement separated 0 ts (.assign a)
  | declare {ts : List Token} {v : Covenant.LocalVariable} (hv : LocalVariable ts v) :
    Statement separated 0 ts (.declare v)
  | branch {n : Nat} {ts : List Token} {s : Covenant.Statement}
    (hbranch : Branch separated n ts s) :
    Statement separated n ts s
  | loop {n : Nat} {ts us vs ws : List Token} {start : Covenant.LocalVariable}
    {condition : Covenant.Expression} {step : Covenant.Assignment} {body : List Covenant.Statement}
    (hstart : LocalVariable ts start) (hcondition : Expression us condition)
    (hstep : Assignment vs step) (hbody : Block separated n ws body) :
    Statement separated n
      (Keyword.for_.token :: ts ++ .semicolon :: us ++ .semicolon :: vs ++ ws)
      (.loop start condition step body)

/-- A branch. After `else` stands a block, or one more branch. -/
inductive Branch (separated : Separation) : Nat → List Token → Covenant.Statement → Prop
  | single {n : Nat} {ts us : List Token} {condition : Covenant.Expression}
    {body : List Covenant.Statement} (hcondition : Expression ts condition)
    (hbody : Block separated n us body) :
    Branch separated n (Keyword.if_.token :: ts ++ us) (.branch condition body none)
  | double {n m : Nat} {ts us vs : List Token} {condition : Covenant.Expression}
    {body elseBody : List Covenant.Statement} (hcondition : Expression ts condition)
    (hbody : Block separated n us body) (helse : Block separated m vs elseBody) :
    Branch separated (max n m) (Keyword.if_.token :: ts ++ us ++ Keyword.else_.token :: vs)
      (.branch condition body (some elseBody))
  | chained {n m : Nat} {ts us vs : List Token} {condition : Covenant.Expression}
    {body : List Covenant.Statement} {next : Covenant.Statement}
    (hcondition : Expression ts condition) (hbody : Block separated n us body)
    (hnext : Branch separated m vs next) :
    Branch separated (max n (m + 1)) (Keyword.if_.token :: ts ++ us ++ Keyword.else_.token :: vs)
      (.branch condition body (some [next]))

/-- Statements between braces. -/
inductive Block (separated : Separation) : Nat → List Token → List Covenant.Statement → Prop
  | mk {n : Nat} {ts : List Token} {body : List Covenant.Statement}
    (hbody : Statements separated n ts body) :
    Block separated (n + 1) (.opens .brace :: ts ++ [.closes .brace]) body

/-- Any number of statements. -/
inductive Statements (separated : Separation) :
    Nat → List Token → List Covenant.Statement → Prop
  | nil : Statements separated 0 [] []
  | cons {n m : Nat} {ts us : List Token} {first : Covenant.Statement}
    {rest : List Covenant.Statement} (hfirst : Statement separated n ts first)
    (hseparated : separated first us) (hrest : Statements separated m us rest) :
    Statements separated (max n m) (ts ++ us) (first :: rest)

end

/-- A statement may stand before any tokens. -/
def anywhere : Separation := fun _ _ => True

/-- A statement that ends with an expression does not stand right before a `-`. -/
def Apart : Separation
  | .branch .., _ | .loop .., _ => True
  | _, following => following.head? ≠ some (.operator .subtract)

/-! ### Declarations -/

/-- The types of a mapping, the key types outermost first and the value type. -/
inductive MappingType : List Token → List String → String → Prop
  | single {key value : String} (hkey : Name key) (hvalue : Name value) :
    MappingType [.opens .paren, .ident key, .fatArrow, .ident value, .closes .paren] [key] value
  | nested {ts : List Token} {key : String} {keys : List String} {value : String}
    (hkey : Name key) (hinner : MappingType ts keys value) :
    MappingType
      (.opens .paren :: .ident key :: .fatArrow :: Keyword.mapping.token :: ts ++ [.closes .paren])
      (key :: keys) value

/-- One or more parameters with commas between them. -/
inductive ParameterList : List Token → List Parameter → Prop
  | last {name type : String} (hname : Name name) (htype : Name type) :
    ParameterList [.ident name, .colon, .ident type] [⟨name, type⟩]
  | more {ts : List Token} {name type : String} {rest : List Parameter} (hname : Name name)
    (htype : Name type) (hrest : ParameterList ts rest) :
    ParameterList (.ident name :: .colon :: .ident type :: .comma :: ts) (⟨name, type⟩ :: rest)

/-- Any number of parameters with commas between them. -/
inductive Parameters : List Token → List Parameter → Prop
  | none : Parameters [] []
  | some {ts : List Token} {ps : List Parameter} (h : ParameterList ts ps) : Parameters ts ps

/-- `-> type`, or nothing. -/
inductive ReturnType : List Token → Option String → Prop
  | none : ReturnType [] none
  | some {type : String} (htype : Name type) : ReturnType [.arrow, .ident type] (some type)

/-- A declaration of a contract. -/
inductive Declaration (separated : Separation) : Nat → List Token → Covenant.Declaration → Prop
  | variable_ {ts : List Token} {name type : String} {value : Covenant.Literal} (hname : Name name)
    (htype : Name type) (hvalue : Literal ts value) :
    Declaration separated 0
      (Keyword.var.token :: .ident name :: .colon :: .ident type :: .assign :: ts)
      (.variable_ ⟨name, type, value⟩)
  | mapping {ts : List Token} {name : String} {keys : List String} {value : String}
    (htypes : MappingType ts keys value) (hname : Name name) :
    Declaration separated 0 (Keyword.mapping.token :: ts ++ [.ident name])
      (.mapping ⟨name, keys, value⟩)
  | function {n : Nat} {ts us vs : List Token} {name : String} {parameters : List Parameter}
    {returnType : Option String} {body : List Covenant.Statement} (hname : Name name)
    (hparameters : Parameters ts parameters) (htype : ReturnType us returnType)
    (hbody : Block separated n vs body) :
    Declaration separated n
      (Keyword.func.token :: .ident name :: .opens .paren :: ts ++ .closes .paren :: us ++ vs)
      (.function ⟨name, parameters, returnType, body⟩)

/-- Any number of declarations. -/
inductive Declarations (separated : Separation) :
    Nat → List Token → List Covenant.Declaration → Prop
  | nil : Declarations separated 0 [] []
  | cons {n m : Nat} {ts us : List Token} {first : Covenant.Declaration}
    {rest : List Covenant.Declaration} (hfirst : Declaration separated n ts first)
    (hrest : Declarations separated m us rest) :
    Declarations separated (max n m) (ts ++ us) (first :: rest)

/-- A contract. -/
inductive Contract (separated : Separation) : Nat → List Token → Covenant.Contract → Prop
  | mk {n : Nat} {ts : List Token} {name : String} {declarations : List Covenant.Declaration}
    (hname : Name name) (hdeclarations : Declarations separated n ts declarations) :
    Contract separated n
      (Keyword.contract.token :: .ident name :: .opens .brace :: ts ++ [.closes .brace])
      ⟨name, declarations⟩

/-! ### The functions of a contract -/

variable {separated : Separation} {n : Nat} {ts : List Token}

theorem Declarations.exists_function {ds : List Covenant.Declaration}
    (h : Declarations separated n ts ds) {f : FunctionDeclaration} (hf : .function f ∈ ds) :
    ∃ m us, Declaration separated m us (.function f) ∧ us ⊆ ts := by
  induction h with
  | nil => exact absurd hf List.not_mem_nil
  | cons hfirst _ ih =>
    rcases List.mem_cons.1 hf with rfl | hf
    · exact ⟨_, _, hfirst, List.subset_append_left _ _⟩
    · obtain ⟨m, us, hfunction, hsub⟩ := ih hf
      exact ⟨m, us, hfunction, List.subset_append_of_subset_right _ hsub⟩

/-- A function of a contract is written by some of its tokens. -/
theorem Contract.exists_function {c : Covenant.Contract} (h : Contract separated n ts c)
    {f : FunctionDeclaration} (hf : f ∈ c.functions) :
    ∃ m us, Declaration separated m us (.function f) ∧ us ⊆ ts := by
  obtain ⟨_, hdeclarations⟩ := h
  obtain ⟨d, hd, hfunction⟩ := List.mem_filterMap.1 hf
  cases d with
  | function g =>
    cases hfunction
    obtain ⟨m, us, hwritten, hsub⟩ := hdeclarations.exists_function hd
    refine ⟨m, us, hwritten, fun t ht => ?_⟩
    simp [hsub ht]
  | _ => cases hfunction

end Grammar

end Covenant
