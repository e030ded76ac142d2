import Covenant.Compile.Error
import Covenant.Contract
import Covenant.Slots

/-!
# Scopes

What a name means inside a function. A local variable comes first, then the storage variables and
mappings of the contract; any other name is taken for a parameter, and whether it is one shows when
the code runs.

Locals are the names declared so far in the order of the text, whatever block they stand in.
-/

namespace Covenant

/-- What a name declares in storage. -/
inductive Cell where
  | variable_
  /-- A mapping with so many keys. -/
  | mapping (depth : Nat)
  deriving DecidableEq

/-- The storage declarations of a contract: what each name is, and the slots of the names. -/
structure Scope where
  cells : List (String × Cell)
  storage : Numbering
  deriving DecidableEq

/-- What a name resolves to. -/
inductive Binding where
  /-- A local variable in a memory slot. -/
  | memory (slot : Nat)
  /-- A storage variable in a storage slot. -/
  | storage (slot : Nat)
  /-- A mapping that starts from a storage slot and takes so many keys. -/
  | mapping (slot depth : Nat)
  /-- A parameter, kept in memory under its name. -/
  | parameter
  deriving DecidableEq

/-- The storage cell a declaration introduces. -/
def Declaration.cell? : Declaration → Option (String × Cell)
  | .variable_ d => some (d.name, .variable_)
  | .mapping d => some (d.name, .mapping d.keyTypes.length)
  | .function _ => none

namespace Scope

/-- What a name declares in storage, if it declares anything. -/
def cell? (s : Scope) (name : String) : Option Cell := s.cells.lookup name

/-- The storage slot of a declared name. -/
def slot (s : Scope) (name : String) : Nat := (s.storage.number name).1

/-- What a name means after the locals declared so far. -/
def resolve (s : Scope) (locals : Numbering) (name : String) : Binding :=
  match locals.lookup? name with
  | some slot => .memory slot
  | none =>
    match s.cell? name with
    | some .variable_ => .storage (s.slot name)
    | some (.mapping depth) => .mapping (s.slot name) depth
    | none => .parameter

end Scope

end Covenant
