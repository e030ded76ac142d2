import Covenant.Proofs.Compile.Precedence
import Covenant.Word.Arithmetic

/-!
# Evaluation

What a function of a contract means, said on its tree and without a machine. There are no positions,
no stack and no numbered memory here: statements change a `State`, in which locals and parameters go
by their names, and give a `Flow`.

Names are resolved by the text alone. Going through a body in order, `Evaluation.declared` are the
locals declared so far, also those of a branch that was not taken; a name that is none of them is a
storage declaration if the contract has one with that name, and a parameter otherwise.

* `Evaluation.term`, `Evaluation.tree` and `Evaluation.expression` are values. Both operands of an
  operator are always evaluated, the left one first.
* `Evaluation.entryAddress` is the storage cell of a mapping entry.
* `Evaluation.statement` and `Evaluation.block` are flows; `Evaluation.iterate` is a loop. Fuel bounds
  the rounds of every loop, and `none` means that it ran out.
* `Evaluation.call` is a call of a function.
-/

namespace Covenant

/-- The names of the storage variables and mappings of a contract, in order. The place of a name is
its slot. -/
def Contract.storageNames (c : Contract) : List String :=
  (c.declarations.filterMap Declaration.cell?).map Prod.fst

namespace Evaluation

/-- What statements work on. -/
structure State where
  /-- The locals that have a value. -/
  locals : String → Option Word
  /-- The parameters that have a value. -/
  parameters : String → Option Word
  /-- The storage cells that have a value, by address. -/
  cells : Word → Option Word

/-- Why an evaluation stops. -/
inductive Trap where
  /-- A parameter that no argument was given for is read. -/
  | undefinedParameter (name : String)
  /-- A local that was declared but not reached is read. It has this number among the locals. -/
  | unsetLocal (number : Nat)
  /-- A storage cell without a value is read. -/
  | missingCell (address : Word)
  | divisionByZero
  /-- An expression with too few or too many operators, or an assignment to no place. A contract that
  compiles has neither. -/
  | malformed

/-- How a statement ends. -/
inductive Flow where
  /-- What follows is evaluated next. -/
  | next (σ : State)
  /-- The call ends with a value. -/
  | returned (value : Word) (σ : State)
  | stopped (trap : Trap) (σ : State)

namespace State

/-- Gives a local a value. -/
def setLocal (σ : State) (name : String) (w : Word) : State :=
  { σ with locals := fun other => if other = name then some w else σ.locals other }

/-- Gives a parameter a value. -/
def setParameter (σ : State) (name : String) (w : Word) : State :=
  { σ with parameters := fun other => if other = name then some w else σ.parameters other }

/-- Gives a storage cell a value. -/
def setCell (σ : State) (address w : Word) : State :=
  { σ with cells := fun other => if other = address then some w else σ.cells other }

/-- The value of a storage cell. -/
def cell (σ : State) (address : Word) : Except Trap Word :=
  match σ.cells address with
  | some w => .ok w
  | none => .error (.missingCell address)

end State

/-- The state after a step that may trap. -/
def Flow.ofResult (σ : State) : Except Trap State → Flow
  | .ok σ' => .next σ'
  | .error t => .stopped t σ

/-! ### Names -/

/-- The locals after one more declaration. -/
def declare (locals : List String) (name : String) : List String :=
  if name ∈ locals then locals else locals ++ [name]

mutual

/-- The locals declared after a statement. -/
def declaredBy (locals : List String) : Statement → List String
  | .returns _ | .assign _ => locals
  | .declare v => declare locals v.name
  | .branch _ thenBody elseBody => declaredByArm (declared locals thenBody) elseBody
  | .loop start _ _ body => declared (declare locals start.name) body

/-- The locals declared after several statements. -/
def declared (locals : List String) : List Statement → List String
  | [] => locals
  | first :: rest => declared (declaredBy locals first) rest

/-- The locals declared after the second arm of a branch, if there is one. -/
def declaredByArm (locals : List String) : Option (List Statement) → List String
  | none => locals
  | some body => declared locals body

end

/-- The value of a name. -/
def read (c : Contract) (locals : List String) (σ : State) (name : String) : Except Trap Word :=
  match locals.idxOf? name with
  | some number =>
    match σ.locals name with
    | some w => .ok w
    | none => .error (.unsetLocal number)
  | none =>
    match c.storageNames.idxOf? name with
    | some slot => σ.cell (.ofNat slot)
    | none =>
      match σ.parameters name with
      | some w => .ok w
      | none => .error (.undefinedParameter name)

/-- The state after a name is given a value. -/
def write (c : Contract) (locals : List String) (σ : State) (name : String) (w : Word) : State :=
  match locals.idxOf? name with
  | some _ => σ.setLocal name w
  | none =>
    match c.storageNames.idxOf? name with
    | some slot => σ.setCell (.ofNat slot) w
    | none => σ.setParameter name w

/-! ### Values -/

/-- The address after one more key: the key is added, modulo 2^256, and the sum is hashed. -/
def nextAddress (address key : Word) : Word := (Word.wrap (address.toInt + key.toInt)).hash

/-- The storage cell of a mapping entry. Its address starts from the slot of the mapping and takes
one key after the other. -/
def entryAddress (slot : Nat) (keys : List Word) : Word := keys.foldl nextAddress (.ofNat slot)

/-- The value of a constant. -/
def literal : Literal → Word
  | .int n => .wrap n
  | .bool b => .ofBool b

mutual

/-- The value of an operand. -/
def term (c : Contract) (locals : List String) (σ : State) : Term → Except Trap Word
  | .literal value => .ok (literal value)
  | .ident name => read c locals σ name
  | .index base keys => do
    let keys ← terms c locals σ keys
    σ.cell (entryAddress (c.storageNames.idxOf base) keys)

/-- The values of several operands, from left to right. -/
def terms (c : Contract) (locals : List String) (σ : State) :
    List Term → Except Trap (List Word)
  | [] => .ok []
  | first :: rest => do
    let w ← term c locals σ first
    let ws ← terms c locals σ rest
    return w :: ws

end

/-- The value of a tree: that of the left operand, that of the right operand, the operator. -/
def tree (c : Contract) (locals : List String) (σ : State) : Tree → Except Trap Word
  | .leaf x => term c locals σ x
  | .node op l r => do
    let a ← tree c locals σ l
    let b ← tree c locals σ r
    match op.apply a b with
    | some w => .ok w
    | none => .error .divisionByZero

/-- The value of an expression. -/
def expression (c : Contract) (locals : List String) (σ : State) (e : Expression) :
    Except Trap Word :=
  match e.tree? with
  | some t => tree c locals σ t
  | none => .error .malformed

/-! ### Statements -/

/-- The state after a value is stored in the target of an assignment. The keys of the target are
evaluated first. -/
def store (c : Contract) (locals : List String) (σ : State) (target : Term) (w : Word) :
    Except Trap State :=
  match target with
  | .literal _ => .error .malformed
  | .ident name => .ok (write c locals σ name w)
  | .index base keys => do
    let keys ← terms c locals σ keys
    return σ.setCell (entryAddress (c.storageNames.idxOf base) keys) w

/-- The state after an assignment: the value comes first, then the target. -/
def assignment (c : Contract) (locals : List String) (σ : State) (a : Assignment) :
    Except Trap State := do
  let w ← expression c locals σ a.value
  match a.target.singleTerm? with
  | some target => store c locals σ target w
  | none => .error .malformed

/-- The state after `var name = value`. The name is not declared yet in the value. -/
def localVariable (c : Contract) (locals : List String) (σ : State) (v : LocalVariable) :
    Except Trap State := do
  let w ← expression c locals σ v.value
  return σ.setLocal v.name w

/-- A loop from its test on: as long as the test holds, the body and the step. -/
def iterate (test : State → Except Trap Word) (body : State → Option Flow)
    (step : State → Except Trap State) : (fuel : Nat) → State → Option Flow
  | 0, _ => none
  | fuel + 1, σ =>
    match test σ with
    | .error t => some (.stopped t σ)
    | .ok w =>
      if w.isTrue then
        match body σ with
        | some (.next σ) =>
          match step σ with
          | .error t => some (.stopped t σ)
          | .ok σ => iterate test body step fuel σ
        | other => other
      else some (.next σ)

mutual

/-- The flow of a statement. -/
def statement (c : Contract) (fuel : Nat) (locals : List String) :
    Statement → State → Option Flow
  | .returns value, σ =>
    match expression c locals σ value with
    | .ok w => some (.returned w σ)
    | .error t => some (.stopped t σ)
  | .assign a, σ => some (.ofResult σ (assignment c locals σ a))
  | .declare v, σ => some (.ofResult σ (localVariable c locals σ v))
  | .branch condition thenBody elseBody, σ =>
    match expression c locals σ condition with
    | .error t => some (.stopped t σ)
    | .ok w =>
      if w.isTrue then block c fuel locals thenBody σ
      else arm c fuel (declared locals thenBody) elseBody σ
  | .loop start condition step body, σ =>
    match localVariable c locals σ start with
    | .error t => some (.stopped t σ)
    | .ok σ =>
      let inner := declare locals start.name
      iterate (fun σ => expression c inner σ condition) (fun σ => block c fuel inner body σ)
        (fun σ => assignment c (declared inner body) σ step) fuel σ

/-- The flow of several statements. -/
def block (c : Contract) (fuel : Nat) (locals : List String) :
    List Statement → State → Option Flow
  | [], σ => some (.next σ)
  | first :: rest, σ =>
    match statement c fuel locals first σ with
    | some (.next σ) => block c fuel (declaredBy locals first) rest σ
    | other => other

/-- The flow of the second arm of a branch, if there is one. -/
def arm (c : Contract) (fuel : Nat) (locals : List String) :
    Option (List Statement) → State → Option Flow
  | none, σ => some (.next σ)
  | some body, σ => block c fuel locals body σ

end

/-- The flow of a call of a function with the given arguments, on storage with the given cells. -/
def call (c : Contract) (fuel : Nat) (f : FunctionDeclaration) (arguments : List Word)
    (cells : Word → Option Word) : Option Flow :=
  block c fuel [] f.body
    { locals := fun _ => none
      parameters := fun name => ((f.parameters.map Parameter.name).zip arguments).lookup name
      cells }

end Evaluation

end Covenant
