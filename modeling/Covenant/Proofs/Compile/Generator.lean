import Covenant.Proofs.Compile.Layout

/-!
# Generation in one pass

`Contract.compile` puts code together from finished pieces: jump targets are sums of lengths, and
the slots of the storage are settled before the first function. A generator does the same in one
pass over the tree, with things that change on the way. It has one buffer for the code, in which a
target that is not known yet is kept open and patched later, and one allocator for the slots of the
whole contract, in which a name takes a slot where it is first used. Targets that were never patched
are an error of its own.

That the two come to the same thing says what the moving parts are for: every target is patched, and
no function moves a slot.

* `CodeBuffer` and `Generator` are the buffer and the state of a pass; `Contract.generate` is the
  pass.
* `CodeBuffer.place` is what a pass has done once it has gone over a piece of the tree, and
  `Generator.statement_eq` that it has.
* `Contract.generate_follows` compares the whole pass with `Contract.compile`.
-/

namespace Covenant

/-- Why a pass has no program. -/
inductive GenerationError where
  | compile (cause : CompileError)
  /-- So many jump targets were left open. -/
  | unpatchedJump (pending : Nat)
  deriving DecidableEq

/-- A list of instructions under construction. -/
structure CodeBuffer where
  code : List Instruction := []
  /-- The number of targets that are open. -/
  pending : Nat := 0
  /-- Where those targets stand that are the end of the list. -/
  exits : List Nat := []

namespace CodeBuffer

open Compile

/-- Adds instructions. -/
def emit (b : CodeBuffer) (code : List Instruction) : CodeBuffer :=
  { b with code := b.code ++ code }

/-- The position of the next instruction. -/
def here (b : CodeBuffer) : Nat := b.code.length

/-- Leaves a target open. It stands at the position that was the next one. -/
def reserve (b : CodeBuffer) : CodeBuffer :=
  { b.emit [.push .zero] with pending := b.pending + 1 }

/-- Fills in the target at a position. -/
def patch (b : CodeBuffer) (place target : Nat) : CodeBuffer :=
  { b with code := b.code.set place (pushNat target), pending := b.pending - 1 }

/-- A jump to the end of the list. -/
def jumpToEnd (b : CodeBuffer) : CodeBuffer :=
  { b.reserve.emit [.jump] with exits := b.exits ++ [b.here] }

/-- The finished list: the end is known, and no target may be open after that. -/
def finish (b : CodeBuffer) : Except GenerationError (List Instruction) :=
  let patched := b.exits.foldl (fun buffer exit => buffer.patch exit b.here) b
  if patched.pending = 0 then .ok patched.code else .error (.unpatchedJump patched.pending)

end CodeBuffer

/-- The state of a pass: the slots of the whole contract, and the code of the function at hand. -/
structure Generator where
  slots : Slots := {}
  buffer : CodeBuffer := {}

namespace Generator

open Compile

/-- Adds instructions. -/
def emit (g : Generator) (code : List Instruction) : Generator :=
  { g with buffer := g.buffer.emit code }

/-- The position of the next instruction. -/
def here (g : Generator) : Nat := g.buffer.here

/-- Leaves a target open. -/
def reserve (g : Generator) : Generator := { g with buffer := g.buffer.reserve }

/-- Fills in the target at a position. -/
def patch (g : Generator) (place target : Nat) : Generator :=
  { g with buffer := g.buffer.patch place target }

/-- Adds the storage slot of a name, which takes one if it has none, and instructions after it. -/
def emitSlot (g : Generator) (name : String) (code : List Instruction) : Generator :=
  let (slot, slots) := g.slots.storageSlot name
  { g with slots }.emit (pushNat slot :: code)

section Pass

variable (cells : List (String × Cell))

/-- Adds the use of a name: the instruction for a local or for a storage variable behind its slot,
or what is done with the key of a parameter. -/
def useName (inMemory inStorage : Instruction) (ofKey : Word → List Instruction) (g : Generator)
    (name : String) : Except CompileError Generator :=
  match g.slots.lookupMemory? name with
  | some slot => .ok (g.emit [pushNat slot, inMemory])
  | none =>
    match cells.lookup name with
    | some .variable_ => .ok (g.emitSlot name [inStorage])
    | some (.mapping depth) => .error (.mappingArity name depth 0)
    | none => do
      let key ← textWord name
      return g.emit (ofKey key)

/-- Reads a name. -/
def readName : Generator → String → Except CompileError Generator :=
  useName cells .mload .sload fun key => [.pushParam key]

/-- Writes the word on top of the stack to a name. -/
def writeName : Generator → String → Except CompileError Generator :=
  useName cells .mstore .sstore fun key => [.push key, .mstore]

/-- Starts the address of an entry with so many keys. -/
def mappingSlot (g : Generator) (base : String) (keys : Nat) : Except CompileError Generator :=
  match cells.lookup base with
  | some (.mapping depth) =>
    if keys = depth then .ok (g.emitSlot base []) else .error (.mappingArity base depth keys)
  | _ => .error (.unknownMapping base)

mutual

/-- Goes over an operand. -/
def term (g : Generator) : Term → Except CompileError Generator
  | .literal value => do
    let w ← literalWord value
    return g.emit [.push w]
  | .ident name => readName cells g name
  | .index base keys => do
    let g ← mappingSlot cells g base keys.length
    let g ← keyCode g keys
    return g.emit [.sload]

/-- Goes over the keys of an entry. -/
def keyCode (g : Generator) : List Term → Except CompileError Generator
  | [] => .ok g
  | key :: rest => do
    let g ← term g key
    keyCode (g.emit [.binary .add, .hash256]) rest

end

/-- Goes over operands with operators before them. Operators that are put off are pending, the
latest first. -/
def operands (g : Generator) (pending : List Operator) :
    List (Operator × Term) → Except CompileError Generator
  | [] => .ok (g.emit (pending.map .binary))
  | (op, operand) :: rest => do
    let (due, later) := pending.span fun top => op.precedence ≤ top.precedence
    let g ← term cells (g.emit (due.map .binary)) operand
    operands g (op :: later) rest

/-- Goes over an expression. -/
def expression (g : Generator) (e : Expression) : Except CompileError Generator :=
  if e.terms.length = e.operators.length + 1 then
    match e.terms with
    | [] => .error (.malformedExpression e.terms.length e.operators.length)
    | first :: rest => do
      let g ← term cells g first
      operands cells g [] (e.operators.zip rest)
  else .error (.malformedExpression e.terms.length e.operators.length)

/-- Goes over `var name = value`. -/
def localVariable (g : Generator) (v : LocalVariable) : Except CompileError Generator := do
  let g ← expression cells g v.value
  let (slot, slots) := g.slots.memorySlot v.name
  return { g with slots }.emit [pushNat slot, .mstore]

/-- Goes over the target of an assignment. -/
def store (g : Generator) (target : Expression) : Term → Except CompileError Generator
  | .literal _ => .error (.invalidTarget target.display)
  | .ident name => writeName cells g name
  | .index base keys => do
    let g ← mappingSlot cells g base keys.length
    let g ← keyCode cells g keys
    return g.emit [.sstore]

/-- Goes over an assignment. -/
def assignment (g : Generator) (a : Assignment) : Except CompileError Generator :=
  match a.target.singleTerm? with
  | none => .error (.invalidTarget a.target.display)
  | some target => do
    let g ← expression cells g a.value
    store cells g a.target target

mutual

/-- Goes over a statement. -/
def statement (g : Generator) : Statement → Except CompileError Generator
  | .returns value => do
    let g ← expression cells g value
    return { g with buffer := g.buffer.jumpToEnd }
  | .assign a => assignment cells g a
  | .declare v => localVariable cells g v
  | .branch condition thenBody elseBody => do
    let toElse := g.here
    let g ← expression cells g.reserve condition
    let g ← block (g.emit [.jumpi]) thenBody
    elseArm g toElse elseBody
  | .loop start condition step body => do
    let g ← localVariable cells g start
    let head := g.here
    let g ← expression cells g.reserve condition
    let g ← block (g.emit [.jumpi]) body
    let g ← assignment cells g step
    let g := g.emit [pushNat head, .jump]
    return g.patch head g.here

/-- Goes over statements in turn. -/
def block (g : Generator) : List Statement → Except CompileError Generator
  | [] => .ok g
  | first :: rest => do
    let g ← statement g first
    block g rest

/-- Goes over the second arm of a branch, to which the target at a position is open. -/
def elseArm (g : Generator) (toElse : Nat) :
    Option (List Statement) → Except CompileError Generator
  | none => .ok (g.patch toElse g.here)
  | some body => do
    let toEnd := g.here
    let g := g.reserve.emit [.jump]
    let g ← block (g.patch toElse g.here) body
    return g.patch toEnd g.here

end

/-- Goes over the body of a function. A value returned at the very end needs no jump. -/
def body (g : Generator) : List Statement → Except CompileError Generator
  | [] => .ok g
  | [.returns value] => expression cells g value
  | first :: rest => do
    let g ← statement cells g first
    body g rest

/-- Goes over a function. Memory slots start anew, storage slots go on. -/
def function (slots : Slots) (f : FunctionDeclaration) :
    Except GenerationError (FunctionCode × Slots) := do
  (checkParameters ⟨cells, slots.storage⟩ f.name [] f.parameters).mapError .compile
  let parameters ← (parameterWords f.parameters).mapError .compile
  let g ← (body cells { slots := slots.resetMemory } f.body).mapError .compile
  let code ← g.buffer.finish
  return (⟨parameters, code⟩, g.slots)

/-- Goes over functions in turn. -/
def functions (slots : Slots) :
    List FunctionDeclaration → Except GenerationError (List FunctionCode × Slots)
  | [] => .ok ([], slots)
  | first :: rest => do
    let (code, slots) ← function cells slots first
    let (codes, slots) ← functions slots rest
    return (code :: codes, slots)

end Pass

/-- Goes over the storage declarations: a variable is stored, a mapping only takes its slot. -/
def initialization (g : Generator) : List Declaration → Except CompileError Generator
  | [] => .ok g
  | .variable_ d :: rest => do
    let value ← literalWord d.value
    initialization ((g.emit [.push value]).emitSlot d.name [.sstore]) rest
  | .mapping d :: rest => initialization { g with slots := (g.slots.storageSlot d.name).2 } rest
  | .function _ :: rest => initialization g rest

end Generator

/-- Goes over a contract: its program, and the slots that were taken. -/
def Contract.generate (c : Contract) : Except GenerationError (Program × Slots) :=
  match Compile.firstRepeat? [] (c.declarations.map Declaration.name) with
  | some name => .error (.compile (.duplicateDeclaration name))
  | none => do
    let g ← (Generator.initialization {} c.declarations).mapError .compile
    let initialization ← g.buffer.finish
    let (codes, slots) ←
      Generator.functions (c.declarations.filterMap Declaration.cell?) g.slots c.functions
    return (⟨initialization, FunctionCode.table codes⟩, slots)

/-! ### What a pass leaves in the buffer

Code that is placed from a position on has symbols for the end of the body. A pass leaves an open
target for each of them and remembers where it stands. -/

namespace Compile

/-- Where the jumps to the end have their targets, in symbols that stand at a position. -/
def ends (position : Nat) : List Symbol → List Nat
  | [] => []
  | .pushEnd :: rest => position :: ends (position + 1) rest
  | .instruction _ :: rest => ends (position + 1) rest

/-- The ends in two pieces one after the other. Those of the second are moved behind the first. -/
theorem ends_append (position : Nat) (first second : List Symbol) :
    ends position (first ++ second)
      = ends position first ++ ends (position + first.length) second := by
  induction first generalizing position with
  | nil => rfl
  | cons symbol rest ih =>
    -- The rest is one position further on, on either side.
    have hshift : position + 1 + rest.length = position + (rest.length + 1) := by omega
    cases symbol with
    | pushEnd => rw [List.cons_append, ends, ends, ih, hshift, List.length_cons, List.cons_append]
    | instruction i => rw [List.cons_append, ends, ends, ih, hshift, List.length_cons]

/-- Instructions alone have no jump to the end. -/
theorem ends_plain (position : Nat) (code : List Instruction) :
    ends position (plain code) = [] := by
  induction code generalizing position with
  | nil => rfl
  | cons i rest ih => exact ih (position + 1)

end Compile

namespace CodeBuffer

open Compile

/-- Adds placed code, with its jumps to the end still open. -/
def place (b : CodeBuffer) (symbols : List Symbol) : CodeBuffer where
  code := b.code ++ symbols.map (Symbol.settle 0)
  pending := b.pending + (ends b.here symbols).length
  exits := b.exits ++ ends b.here symbols

theorem here_place (b : CodeBuffer) (symbols : List Symbol) :
    (b.place symbols).here = b.here + symbols.length := by
  simp [place, here]

theorem here_emit (b : CodeBuffer) (code : List Instruction) :
    (b.emit code).here = b.here + code.length := by
  simp [emit, here]

/-- To place finished instructions is to add them. -/
theorem place_plain (b : CodeBuffer) (code : List Instruction) :
    b.place (plain code) = b.emit code := by
  rw [place, ends_plain, map_settle_plain]
  simp [emit]

/-- Pieces can be placed one after the other or as one, since the ends of the second are counted
from where the first is placed. -/
theorem place_append (b : CodeBuffer) (first second : List Symbol) :
    b.place (first ++ second) = (b.place first).place second := by
  have hhere := here_place b first
  simp only [place] at hhere ⊢
  -- The second piece begins where the first one ends.
  rw [hhere, ends_append, List.map_append, List.length_append]
  simp only [List.append_assoc, Nat.add_assoc]

theorem emit_emit (b : CodeBuffer) (first second : List Instruction) :
    (b.emit first).emit second = b.emit (first ++ second) := by
  simp only [emit, List.append_assoc]

/-- The jump of a `return` is a piece with one end in it. -/
theorem jumpToEnd_eq (b : CodeBuffer) :
    b.jumpToEnd = b.place [.pushEnd, .instruction .jump] := by
  simp only [jumpToEnd, reserve, emit, place, ends, List.append_assoc, List.length_cons,
    List.length_nil]
  rfl

/-- What is added behind an open target does not keep it from being patched. -/
theorem patch_place {b : CodeBuffer} {k : Nat} (hplace : k < b.here) (hopen : 0 < b.pending)
    (target : Nat) (symbols : List Symbol) :
    (b.place symbols).patch k target = (b.patch k target).place symbols := by
  -- A patch changes no length, so the ends behind it stay where they are.
  have hends : ends (b.patch k target).here symbols = ends b.here symbols :=
    congrArg (fun position => ends position symbols) List.length_set
  have hcode : (b.code ++ symbols.map (Symbol.settle 0)).set k (pushNat target)
      = b.code.set k (pushNat target) ++ symbols.map (Symbol.settle 0) :=
    List.set_append_left k _ hplace
  -- The count cannot be cut off at zero, as a target is open.
  have hpending : b.pending + (ends b.here symbols).length - 1
      = b.pending - 1 + (ends b.here symbols).length := by omega
  simp only [place, hends]
  simp only [patch, hcode, hpending]

/-- A target that is patched at once might have been known. -/
theorem patch_reserve (b : CodeBuffer) (target : Nat) :
    b.reserve.patch b.here target = b.emit [pushNat target] := by
  have hcode : (b.code ++ [Instruction.push .zero]).set b.code.length (pushNat target)
      = b.code ++ [pushNat target] := by
    rw [List.set_append_right _ _ (Nat.le_refl _), Nat.sub_self]
    rfl
  simp only [reserve, patch, emit, here, hcode, Nat.add_sub_cancel]

/-- A target that is left open, and patched when the code behind it is there, might have been known
from the start. -/
theorem patch_place_reserve (b : CodeBuffer) (target : Nat) (symbols : List Symbol) :
    (b.reserve.place symbols).patch b.here target
      = b.place (.instruction (pushNat target) :: symbols) := by
  have hplace : b.here < b.reserve.here := by
    rw [reserve]
    simp [here, emit]
  rw [patch_place hplace (Nat.succ_pos _), patch_reserve, ← place_plain, ← place_append]
  rfl

/-- A second target that is left open does not keep the first from being patched. -/
theorem patch_reserve_of_lt {b : CodeBuffer} {k : Nat} (hplace : k < b.here) (hopen : 0 < b.pending)
    (target : Nat) : b.reserve.patch k target = (b.patch k target).reserve := by
  have hcode : (b.code ++ [Instruction.push .zero]).set k (pushNat target)
      = b.code.set k (pushNat target) ++ [.push .zero] :=
    List.set_append_left k _ hplace
  have hpending : b.pending + 1 - 1 = b.pending - 1 + 1 := by omega
  simp only [reserve, patch, emit, hcode, hpending]

/-- A test under an open target, and what comes behind it until the target is known. -/
theorem patch_test (b : CodeBuffer) (test : List Instruction) (target : Nat)
    (symbols : List Symbol) :
    (((b.reserve.emit test).emit [.jumpi]).place symbols).patch b.here target
      = b.place (plain (pushNat target :: test ++ [.jumpi]) ++ symbols) := by
  rw [emit_emit, ← place_plain, ← place_append, patch_place_reserve]
  rfl

/-- The jump over a second arm. The first arm's own target is patched when the jump is there, and
the target of the jump when the second arm is. -/
theorem patch_skip {b : CodeBuffer} {k : Nat} (hplace : k < b.here) (hopen : 0 < b.pending)
    (target exit : Nat) (symbols : List Symbol) :
    (((b.reserve.emit [.jump]).patch k target).place symbols).patch b.here exit
      = (b.patch k target).place (plain [pushNat exit, .jump] ++ symbols) := by
  have hhere : (b.patch k target).here = b.here := List.length_set
  have hreserve : k < b.reserve.here := by
    rw [reserve]
    simp only [here, emit, List.length_append]
    exact Nat.lt_add_right 1 hplace
  -- First the target of the test is moved in front of what came after it, then the jump's own.
  rw [← place_plain, patch_place hreserve (Nat.succ_pos _), patch_reserve_of_lt hplace hopen,
    ← place_append, ← hhere, patch_place_reserve]
  rfl

/-! ### Finishing -/

/-- Patching several targets sets their instructions, and counts each of them off. -/
theorem patch_exits (exits : List Nat) (target : Nat) (b : CodeBuffer) :
    exits.foldl (fun buffer exit => buffer.patch exit target) b
      = { b with
          code := exits.foldl (fun code exit => code.set exit (pushNat target)) b.code
          pending := b.pending - exits.length } := by
  induction exits generalizing b with
  | nil => rfl
  | cons exit rest ih =>
    rw [List.foldl_cons, ih]
    simp only [patch, List.foldl_cons, List.length_cons, Nat.sub_sub, Nat.add_comm]

/-- Patching the ends of symbols settles them. -/
theorem patch_ends (target : Nat) (front : List Instruction) (symbols : List Symbol) :
    (ends front.length symbols).foldl (fun code exit => code.set exit (pushNat target))
        (front ++ symbols.map (Symbol.settle 0))
      = front ++ symbols.map (Symbol.settle target) := by
  induction symbols generalizing front with
  | nil => rfl
  | cons symbol rest ih =>
    -- One symbol joins the front, patched if it is an end.
    have hnext := ih (front ++ [symbol.settle target])
    rw [List.length_append, List.append_assoc, List.append_assoc] at hnext
    cases symbol with
    | pushEnd =>
      rw [ends, List.foldl_cons, List.map_cons, List.set_append_right _ _ (Nat.le_refl _),
        Nat.sub_self]
      exact hnext
    | instruction i => exact hnext

/-- A body that was placed in an empty buffer has all its targets patched in the end. -/
theorem finish_place (symbols : List Symbol) :
    (CodeBuffer.place {} symbols).finish = .ok (settle symbols) := by
  have hhere : (CodeBuffer.place {} symbols).here = symbols.length := by
    rw [here_place]
    exact Nat.zero_add _
  have hcode := patch_ends symbols.length [] symbols
  -- As many targets are open as there are ends, and each of them is patched.
  rw [finish, hhere, patch_exits]
  simp only [place, here, List.length_nil, List.nil_append, Nat.zero_add, Nat.sub_self, if_true]
  exact congrArg Except.ok hcode

end CodeBuffer

namespace Compile

/-- The code for the use of a name, by what the name resolves to. -/
def nameCode (inMemory inStorage : Instruction) (ofKey : Word → List Instruction) (scope : Scope)
    (locals : Numbering) (name : String) : Except CompileError (List Instruction) :=
  match scope.resolve locals name with
  | .memory slot => .ok [pushNat slot, inMemory]
  | .storage slot => .ok [pushNat slot, inStorage]
  | .mapping _ depth => .error (.mappingArity name depth 0)
  | .parameter => do
    let key ← textWord name
    return ofKey key

/-- Reading a name and writing to it differ in the instructions they end with, and in nothing else.
-/
theorem readName_eq_nameCode (scope : Scope) (locals : Numbering) (name : String) :
    readName scope locals name
      = nameCode .mload .sload (fun key => [.pushParam key]) scope locals name := rfl

theorem writeName_eq_nameCode (scope : Scope) (locals : Numbering) (name : String) :
    writeName scope locals name
      = nameCode .mstore .sstore (fun key => [.push key, .mstore]) scope locals name := rfl

end Compile

/-- Two chains of computations that go on alike after steps with matching results. -/
theorem bind_eq_map {ε α α' β β' : Type} {x : Except ε α} {y : Except ε α'} {k : α → Except ε β}
    {k' : α' → Except ε β'} {F : α → α'} {G : β → β'} (hstep : y = x.map F)
    (hrest : ∀ a, x = .ok a → k' (F a) = (k a).map G) : (y >>= k') = (x >>= k).map G := by
  subst hstep
  cases x with
  | error e => rfl
  | ok a => exact hrest a rfl

/-- The last step of such a chain, whose result is worked out from what came before. -/
theorem eq_map_pure {ε α β β' : Type} {x : Except ε α} {y : Except ε β'} {f : α → β} {F : α → β'}
    {G : β → β'} (hstep : y = x.map F) (hresult : ∀ a, F a = G (f a)) :
    y = (x >>= fun a => pure (f a)).map G := by
  subst hstep
  cases x with
  | error e => rfl
  | ok a => exact congrArg Except.ok (hresult a)

/-- Every storage declaration has a slot. -/
def Scope.Numbered (s : Scope) : Prop :=
  ∀ name cell, s.cell? name = some cell → name ∈ s.storage.names

/-- A name that has a number takes no new one. -/
theorem Numbering.number_of_mem {n : Numbering} {name : String} (h : name ∈ n.names) :
    (n.number name).2 = n := by
  cases hlookup : n.lookup? name with
  | none => exact absurd h (List.idxOf?_eq_none_iff.1 hlookup)
  | some i => rw [Numbering.number, hlookup]

namespace Generator

open Compile

/-! ### Straight code

Once every storage declaration has its slot, a pass over straight code changes nothing but the
buffer. -/

theorem emit_nil (g : Generator) : g.emit [] = g := by
  simp only [emit, CodeBuffer.emit, List.append_nil]

theorem emit_emit (g : Generator) (first second : List Instruction) :
    (g.emit first).emit second = g.emit (first ++ second) := by
  simp only [emit, CodeBuffer.emit_emit]

/-- The storage slots of a pass are those of a scope, and every storage declaration has one. -/
structure Settled (scope : Scope) (g : Generator) : Prop where
  storage : g.slots.storage = scope.storage
  numbered : scope.Numbered

variable {scope : Scope} {g : Generator}

/-- Code alone moves no slot. -/
theorem Settled.emit (hg : g.Settled scope) (code : List Instruction) :
    (g.emit code).Settled scope :=
  ⟨hg.storage, hg.numbered⟩

/-- Once every storage declaration has its slot, using one takes none. This is where the order of
the pass matters: the initial values come first. -/
theorem emitSlot_eq (hg : g.Settled scope) {name : String} {cell : Cell}
    (hcell : scope.cell? name = some cell) (code : List Instruction) :
    g.emitSlot name code = g.emit (pushNat (scope.slot name) :: code) := by
  -- The name has a slot already, so the numbering stays as it is.
  have hsame : (scope.storage.number name).2 = scope.storage :=
    Numbering.number_of_mem (hg.numbered name cell hcell)
  have hslots : { g.slots with storage := scope.storage } = g.slots := by rw [← hg.storage]
  simp only [emitSlot, Slots.storageSlot, hg.storage, hsame, hslots]
  rfl

/-- A name is used in the same way in a pass as in a scope that has its slots. -/
theorem useName_eq (inMemory inStorage : Instruction) (ofKey : Word → List Instruction)
    (hg : g.Settled scope) (name : String) :
    useName scope.cells inMemory inStorage ofKey g name
      = (nameCode inMemory inStorage ofKey scope g.slots.memory name).map g.emit := by
  have hlookup : scope.cells.lookup name = scope.cell? name := rfl
  -- Both look for a local first, then for a storage declaration, and last for a parameter.
  unfold useName nameCode Scope.resolve Slots.lookupMemory?
  rw [hlookup]
  cases g.slots.memory.lookup? name with
  | some slot => rfl
  | none =>
    cases hcell : scope.cell? name with
    | none =>
      dsimp only
      cases textWord name with
      | error e => rfl
      | ok key => rfl
    | some cell =>
      cases cell with
      | variable_ => exact congrArg Except.ok (emitSlot_eq hg hcell _)
      | mapping depth => rfl

/-- The address of an entry starts with the slot of its mapping, or fails in the same way. -/
theorem mappingSlot_eq (hg : g.Settled scope) (base : String) (keys : Nat) :
    mappingSlot scope.cells g base keys
      = (Compile.mappingSlot scope base keys).map fun slot => g.emit [pushNat slot] := by
  have hlookup : scope.cells.lookup base = scope.cell? base := rfl
  unfold mappingSlot Compile.mappingSlot
  rw [hlookup]
  cases hcell : scope.cell? base with
  | none => rfl
  | some cell =>
    cases cell with
    | variable_ => rfl
    | mapping depth =>
      by_cases hkeys : keys = depth
      · simp only [hkeys, if_true]
        exact congrArg Except.ok (emitSlot_eq hg hcell _)
      · simp only [hkeys, if_false]
        rfl

mutual

/-- A pass over an operand adds the code of the operand, or fails with its error. -/
theorem term_eq : ∀ (x : Term) {g : Generator}, g.Settled scope →
    term scope.cells g x = (Compile.term scope g.slots.memory x).map g.emit
  | .literal value, g, hg => by
    rw [term, Compile.term]
    cases literalWord value with
    | error e => rfl
    | ok w => rfl
  | .ident name, g, hg => by
    rw [term, Compile.term, readName_eq_nameCode]
    exact useName_eq _ _ _ hg name
  | .index base keys, g, hg => by
    rw [term, Compile.term]
    refine bind_eq_map (mappingSlot_eq hg base _) fun slot _ => ?_
    refine bind_eq_map (keyCode_eq keys (hg.emit [pushNat slot])) fun code _ => ?_
    rw [emit_emit, emit_emit]
    rfl

/-- A pass over the keys of an entry adds their code. -/
theorem keyCode_eq : ∀ (keys : List Term) {g : Generator}, g.Settled scope →
    keyCode scope.cells g keys = (Compile.keyCode scope g.slots.memory keys).map g.emit
  | [], g, hg => by
    rw [keyCode, Compile.keyCode]
    exact congrArg Except.ok (emit_nil g).symm
  | key :: rest, g, hg => by
    rw [keyCode, Compile.keyCode]
    refine bind_eq_map (term_eq key hg) fun code _ => ?_
    rw [emit_emit]
    refine eq_map_pure (keyCode_eq rest (hg.emit _)) fun more => ?_
    rw [emit_emit, List.append_assoc]
    rfl

end

/-- Operators are worked in as the operands come. -/
theorem operands_eq : ∀ (operators : List Operator) (xs : List Term) (pending : List Operator)
    {g : Generator}, xs.length = operators.length → g.Settled scope →
    operands scope.cells g pending (operators.zip xs)
      = (terms scope g.slots.memory xs).map
          fun codes => g.emit (weave pending (operators.zip codes))
  | [], [], pending, g, _, hg => rfl
  | op :: operators, x :: xs, pending, g, hlength, hg => by
    -- The operators that are due come before the operand, in a pass as in the woven code.
    rw [List.zip_cons_cons, operands, terms]
    refine bind_eq_map (term_eq x (hg.emit _)) fun code _ => ?_
    rw [emit_emit]
    refine eq_map_pure (operands_eq operators xs _ (Nat.succ.inj hlength) (hg.emit _))
      fun codes => ?_
    rw [emit_emit, List.zip_cons_cons, weave]
    rfl

/-- A pass over an expression adds its code. Both refuse the same numbers of operands and operators.
-/
theorem expression_eq (hg : g.Settled scope) (e : Expression) :
    expression scope.cells g e = (Compile.expression scope g.slots.memory e).map g.emit := by
  unfold expression Compile.expression
  split
  · next hlength =>
    -- The lengths match, so there is a first operand.
    cases hterms : e.terms with
    | nil => rw [hterms] at hlength; simp at hlength
    | cons first rest =>
      rw [hterms] at hlength
      have hrest : rest.length = e.operators.length := Nat.succ.inj hlength
      rw [terms]
      dsimp only
      rw [term_eq first hg]
      cases Compile.term scope g.slots.memory first with
      | error e => rfl
      | ok code =>
        show operands scope.cells (g.emit code) [] (e.operators.zip rest) = _
        rw [operands_eq e.operators rest [] hrest (hg.emit code)]
        show Except.map _ (terms scope g.slots.memory rest) = _
        cases terms scope g.slots.memory rest with
        | error e => rfl
        | ok codes => exact congrArg Except.ok (emit_emit g code _)
  · rfl

/-- A pass over the target of an assignment adds the code that stores to it. -/
theorem store_eq (hg : g.Settled scope) (target : Expression) (x : Term) :
    store scope.cells g target x = (Compile.store scope g.slots.memory target x).map g.emit := by
  cases x with
  | literal value => rfl
  | ident name =>
    rw [store, Compile.store, writeName_eq_nameCode]
    exact useName_eq _ _ _ hg name
  | index base keys =>
    rw [store, Compile.store, address]
    simp only [bind_assoc, pure_bind]
    refine bind_eq_map (mappingSlot_eq hg base _) fun slot _ => ?_
    refine bind_eq_map (keyCode_eq keys (hg.emit [pushNat slot])) fun code _ => ?_
    rw [emit_emit, emit_emit]
    rfl

/-- A pass over an assignment adds the code of the value, and behind it that of the target. -/
theorem assignment_eq (hg : g.Settled scope) (a : Assignment) :
    assignment scope.cells g a = (Compile.assignment scope g.slots.memory a).map g.emit := by
  unfold assignment Compile.assignment
  cases a.target.singleTerm? with
  | none => rfl
  | some target =>
    refine bind_eq_map (expression_eq hg a.value) fun value _ => ?_
    refine eq_map_pure (store_eq (hg.emit value) a.target target) fun rest => ?_
    exact emit_emit g value rest

/-! ### Statements -/

/-- Adds placed code, and goes on with other locals. -/
def place (g : Generator) (symbols : List Symbol) (locals : Numbering) : Generator where
  slots := { g.slots with memory := locals }
  buffer := g.buffer.place symbols

/-- Placed code may change the locals, but no storage slot. -/
theorem Settled.place (hg : g.Settled scope) (symbols : List Symbol) (locals : Numbering) :
    (g.place symbols locals).Settled scope :=
  ⟨hg.storage, hg.numbered⟩

theorem place_plain (code : List Instruction) :
    g.place (plain code) g.slots.memory = g.emit code := by
  rw [place, CodeBuffer.place_plain]
  rfl

theorem place_nil (g : Generator) : g.place [] g.slots.memory = g :=
  (place_plain []).trans (emit_nil g)

/-- Pieces placed in turn are one piece, with the locals of the last. -/
theorem place_place (first second : List Symbol) (locals after : Numbering) :
    (g.place first locals).place second after = g.place (first ++ second) after := by
  simp only [place, CodeBuffer.place_append]

/-- A pass over `var name = value` adds its code, and goes on with the local it declares. -/
theorem localVariable_eq (hg : g.Settled scope) (v : LocalVariable) :
    localVariable scope.cells g v
      = (Compile.localVariable scope g.slots.memory v).map fun r => g.place (plain r.1) r.2 := by
  refine bind_eq_map (expression_eq hg v.value) fun value _ => ?_
  -- The value's code and the store are one piece, and the name takes its slot in between.
  show Except.ok _ = Except.ok (g.place (plain _) _)
  rw [place, CodeBuffer.place_plain, ← CodeBuffer.emit_emit]
  rfl

theorem Settled.reserve (hg : g.Settled scope) : g.reserve.Settled scope :=
  ⟨hg.storage, hg.numbered⟩

theorem Settled.patch (hg : g.Settled scope) (position target : Nat) :
    (g.patch position target).Settled scope :=
  ⟨hg.storage, hg.numbered⟩

theorem here_place (symbols : List Symbol) (locals : Numbering) :
    (g.place symbols locals).here = g.here + symbols.length :=
  g.buffer.here_place symbols

theorem here_emit (code : List Instruction) : (g.emit code).here = g.here + code.length :=
  g.buffer.here_emit code

theorem here_reserve : g.reserve.here = g.here + 1 :=
  g.buffer.here_emit [.push .zero]

theorem here_patch (position target : Nat) : (g.patch position target).here = g.here :=
  List.length_set

/-- Where the code behind a test begins: behind the open target, the test and its jump. -/
theorem here_test (test : List Instruction) :
    ((g.reserve.emit test).emit [.jumpi]).here = g.here + test.length + 2 := by
  rw [here_emit, here_emit, here_reserve, List.length_singleton]
  omega

/-- The target of a test is patched when the code behind the test is there, and then it is as if it
had been known. -/
theorem patch_test (test : List Instruction) (target : Nat) (symbols : List Symbol)
    (locals : Numbering) :
    (((g.reserve.emit test).emit [.jumpi]).place symbols locals).patch g.here target
      = g.place (plain (pushNat target :: test ++ [.jumpi]) ++ symbols) locals :=
  congrArg (Generator.mk { g.slots with memory := locals })
    (g.buffer.patch_test test target symbols)

/-- The jump over a second arm gets its target when the arm is done. -/
theorem patch_skip {k : Nat} (hplace : k < g.here) (hopen : 0 < g.buffer.pending)
    (target exit : Nat) (symbols : List Symbol) (locals : Numbering) :
    (((g.reserve.emit [.jump]).patch k target).place symbols locals).patch g.here exit
      = (g.patch k target).place (plain [pushNat exit, .jump] ++ symbols) locals :=
  congrArg (Generator.mk { g.slots with memory := locals })
    (CodeBuffer.patch_skip hplace hopen target exit symbols)

mutual

/-- A pass over a statement places the symbols that stand for it at the position where the pass is.
By recursion on the tree, together with blocks and second arms. -/
theorem statement_eq : ∀ (s : Statement) {g : Generator}, g.Settled scope →
    statement scope.cells g s
      = (Compile.statement scope g.here g.slots.memory s).map fun r => g.place r.1 r.2
  | .returns value, g, hg => by
    rw [statement, Compile.statement]
    refine bind_eq_map (expression_eq hg value) fun code _ => ?_
    show Except.ok _ = Except.ok (g.place _ _)
    rw [CodeBuffer.jumpToEnd_eq, place, CodeBuffer.place_append, CodeBuffer.place_plain]
    rfl
  | .assign a, g, hg => by
    rw [statement, Compile.statement]
    exact eq_map_pure (assignment_eq hg a) fun code => (place_plain code).symm
  | .declare v, g, hg => by
    rw [statement, Compile.statement]
    exact eq_map_pure (localVariable_eq hg v) fun _ => rfl
  | .branch condition thenBody elseBody, g, hg => by
    rw [statement, Compile.statement]
    refine bind_eq_map (expression_eq hg.reserve condition) fun test _ => ?_
    have hthen := block_eq thenBody ((hg.reserve.emit test).emit [.jumpi])
    rw [here_test] at hthen
    refine bind_eq_map hthen fun r _ => ?_
    -- The target of the second arm stays open while the first arm is gone over.
    have harm := elseArm_eq elseBody g.here
      (((hg.reserve.emit test).emit [.jumpi]).place r.1 r.2) (by rw [here_place, here_test]; omega)
      (Nat.lt_add_right _ (Nat.succ_pos _))
    rw [here_place, here_test] at harm
    refine eq_map_pure harm fun r' => ?_
    rw [patch_test, place_place]
    simp only [List.append_assoc]
  | .loop start condition step body, g, hg => by
    rw [statement, Compile.statement]
    refine bind_eq_map (localVariable_eq hg start) fun r _ => ?_
    have hstart := hg.place (plain r.1) r.2
    refine bind_eq_map (expression_eq hstart.reserve condition) fun test _ => ?_
    have hbody := block_eq body ((hstart.reserve.emit test).emit [.jumpi])
    rw [here_test, here_place, length_plain] at hbody
    refine bind_eq_map hbody fun r' _ => ?_
    refine bind_eq_map (assignment_eq (((hstart.reserve.emit test).emit [.jumpi]).place r'.1 r'.2)
      step) fun stepCode _ => ?_
    -- All that comes behind the test is one piece, the jump back included.
    rw [emit_emit, ← place_plain (stepCode ++ _), place_place]
    dsimp only
    rw [patch_test, place_place, here_place, here_place, here_test, here_place, length_plain]
    refine congrArg Except.ok (congrArg (g.place · r'.2) ?_)
    have hexit : g.here + r.1.length + test.length + 2
        + (r'.1 ++ plain (stepCode ++ [pushNat (g.here + r.1.length), .jump])).length
        = g.here + r.1.length + test.length + 2 + r'.1.length + stepCode.length + 2 := by
      simp only [List.length_append, length_plain, List.length_cons, List.length_nil]
      omega
    rw [hexit]
    simp only [plain, List.map_append, List.append_assoc]

/-- A pass over statements places their symbols one after the other. -/
theorem block_eq : ∀ (statements : List Statement) {g : Generator}, g.Settled scope →
    block scope.cells g statements
      = (Compile.block scope g.here g.slots.memory statements).map fun r => g.place r.1 r.2
  | [], g, hg => by
    rw [block, Compile.block]
    exact congrArg Except.ok (place_nil g).symm
  | first :: rest, g, hg => by
    rw [block, Compile.block]
    refine bind_eq_map (statement_eq first hg) fun r _ => ?_
    have hrest := block_eq rest (hg.place r.1 r.2)
    rw [here_place] at hrest
    refine eq_map_pure hrest fun r' => ?_
    exact place_place _ _ _ _

/-- A pass over a second arm patches the target of the test, and places the jump over the arm and
the arm. -/
theorem elseArm_eq : ∀ (elseBody : Option (List Statement)) (toElse : Nat) {g : Generator},
    g.Settled scope → toElse < g.here → 0 < g.buffer.pending →
    elseArm scope.cells g toElse elseBody
      = (Compile.elseArm scope g.here g.slots.memory elseBody).map fun r =>
          (g.patch toElse (g.here + r.2.1.length)).place (plain r.2.1 ++ r.1) r.2.2
  | none, toElse, g, hg, hplace, hopen => by
    rw [elseArm, Compile.elseArm]
    exact congrArg Except.ok (place_nil (g.patch toElse g.here)).symm
  | some body, toElse, g, hg, hplace, hopen => by
    rw [elseArm, Compile.elseArm]
    have hjump : (g.reserve.emit [.jump]).here = g.here + 2 := by
      rw [here_emit, here_reserve, List.length_singleton]
    have hbody := block_eq body ((hg.reserve.emit [.jump]).patch toElse (g.here + 2))
    rw [here_patch, hjump] at hbody
    rw [hjump]
    refine bind_eq_map hbody fun r _ => ?_
    rw [here_place, here_patch, hjump, patch_skip hplace hopen]
    rfl

end

/-! ### Functions and contracts

Here two kinds of errors meet: those of the compilation, which a pass reports as they are, and open
targets, of which there are none. -/

/-- The second computation fails with the error of the first, or both have related results. -/
inductive Follows {ε ε' α β : Type} (wrap : ε → ε') (R : α → β → Prop) :
    Except ε α → Except ε' β → Prop where
  | error (e : ε) : Follows wrap R (.error e) (.error (wrap e))
  | ok {a : α} {b : β} (h : R a b) : Follows wrap R (.ok a) (.ok b)

section Follows

variable {ε ε' α α' β β' : Type} {wrap : ε → ε'} {R : α → β → Prop} {S : α' → β' → Prop}

/-- Chains of computations follow each other if their steps do. -/
theorem Follows.bind {x : Except ε α} {y : Except ε' β} {k : α → Except ε α'}
    {k' : β → Except ε' β'} (hstep : Follows wrap R x y)
    (hrest : ∀ a b, R a b → Follows wrap S (k a) (k' b)) : Follows wrap S (x >>= k) (y >>= k') := by
  cases hstep with
  | error e => exact .error e
  | ok h => exact hrest _ _ h

theorem Follows.map {x : Except ε α} {y : Except ε' β} {T : α' → β → Prop} {f : α → α'}
    (h : Follows wrap R x y) (hresult : ∀ a b, R a b → T (f a) b) :
    Follows wrap T (x.map f) y := by
  cases h with
  | error e => exact .error e
  | ok h => exact .ok (hresult _ _ h)

/-- A computation that is another one up to its result follows it. -/
theorem Follows.of_eq_map {x : Except ε α} {y : Except ε β} {F : α → β} (h : y = x.map F) :
    Follows id (fun a b => b = F a) x y := by
  subst h
  cases x with
  | error e => exact .error e
  | ok a => exact .ok rfl

/-- Errors can be wrapped afterwards. -/
theorem Follows.mapError {x : Except ε α} {y : Except ε β} (h : Follows id R x y) (f : ε → ε') :
    Follows f R x (y.mapError f) := by
  cases h with
  | error e => exact .error e
  | ok h => exact .ok h

theorem Follows.refl (x : Except ε α) : Follows id Eq x x := by
  cases x with
  | error e => exact .error e
  | ok a => exact .ok rfl

end Follows

/-- A pass over a body places its symbols. Both leave the jump of a last `return` out. -/
theorem body_follows (statements : List Statement) {g : Generator} (hg : g.Settled scope) :
    Follows id (fun symbols g' => ∃ locals, g' = g.place symbols locals)
      (bodyFrom scope g.here g.slots.memory statements) (body scope.cells g statements) := by
  induction statements generalizing g with
  | nil => exact .ok ⟨g.slots.memory, (place_nil g).symm⟩
  | cons first rest ih =>
    -- A `return` at the very end is the one statement that is treated differently in a body.
    by_cases hlast : ∃ value, first = .returns value ∧ rest = []
    · obtain ⟨value, rfl, rfl⟩ := hlast
      rw [bodyFrom, body, expression_eq hg]
      cases Compile.expression scope g.slots.memory value with
      | error e => exact .error e
      | ok code => exact .ok ⟨g.slots.memory, (place_plain code).symm⟩
    · have hother : ∀ value, first = .returns value → rest = [] → False :=
        fun value hfirst hrest => hlast ⟨value, hfirst, hrest⟩
      rw [bodyFrom.eq_3 _ _ _ _ _ hother, body.eq_3 _ _ _ _ hother]
      refine (Follows.of_eq_map (statement_eq first hg)).bind fun r g₁ hg₁ => ?_
      subst hg₁
      have hrest := ih (hg.place r.1 r.2)
      rw [here_place] at hrest
      refine hrest.map fun more g' hplaced => ?_
      obtain ⟨locals, rfl⟩ := hplaced
      exact ⟨locals, place_place _ _ _ _⟩

/-- A pass over a function has the code of the function. All its targets are patched, and the
storage slots are as they were. -/
theorem function_follows {slots : Slots} (hg : ({ slots } : Generator).Settled scope)
    (f : FunctionDeclaration) :
    Follows .compile (fun code r => r.1 = code ∧ ({ slots := r.2 } : Generator).Settled scope)
      (Compile.function scope f) (function scope.cells slots f) := by
  have hscope : (⟨scope.cells, slots.storage⟩ : Scope) = scope :=
    congrArg (Scope.mk scope.cells) hg.storage
  have hreset : ({ slots := slots.resetMemory } : Generator).Settled scope :=
    ⟨hg.storage, hg.numbered⟩
  unfold Compile.function function Compile.body
  rw [hscope]
  -- The parameters are checked before the body in both, with the same errors.
  refine ((Follows.refl _).mapError GenerationError.compile).bind fun _ _ _ => ?_
  refine ((Follows.refl _).mapError GenerationError.compile).bind fun words _ hwords => ?_
  subst hwords
  have hbody := (body_follows f.body hreset).mapError GenerationError.compile
  -- The symbols of the body, settled, are the list that is finished.
  have hcode : Follows GenerationError.compile
      (fun code g' =>
        g'.buffer.finish = .ok code ∧ ({ slots := g'.slots } : Generator).Settled scope)
      ((bodyFrom scope 0 {} f.body).map settle)
      ((body scope.cells { slots := slots.resetMemory } f.body).mapError
        GenerationError.compile) := by
    refine hbody.map fun symbols g' hplaced => ?_
    obtain ⟨locals, rfl⟩ := hplaced
    exact ⟨CodeBuffer.finish_place symbols, hg.storage, hg.numbered⟩
  refine hcode.bind fun code g' hfinish => ?_
  obtain ⟨hfinish, hafter⟩ := hfinish
  rw [hfinish]
  exact .ok ⟨rfl, hafter⟩

/-- A pass over functions in turn has their code. The slots are handed on from each to the next, and
never move. -/
theorem functions_follow (fs : List FunctionDeclaration) {slots : Slots}
    (hg : ({ slots } : Generator).Settled scope) :
    Follows .compile (fun codes r => r.1 = codes ∧ ({ slots := r.2 } : Generator).Settled scope)
      (Compile.functions scope fs) (functions scope.cells slots fs) := by
  induction fs generalizing slots with
  | nil => exact .ok ⟨rfl, hg⟩
  | cons first rest ih =>
    rw [Compile.functions, functions]
    refine (function_follows hg first).bind fun code r hr => ?_
    obtain ⟨rfl, hafter⟩ := hr
    refine (ih hafter).bind fun codes r' hr' => ?_
    obtain ⟨rfl, hend⟩ := hr'
    exact .ok ⟨rfl, hend⟩

/-- The initial values are one pass in either case, which takes the slots in the order of the
declarations. -/
theorem initialization_eq (declarations : List Declaration) (g : Generator) :
    initialization g declarations
      = (Compile.initialization g.slots.storage declarations).map fun r =>
          { slots := { g.slots with storage := r.2 }, buffer := g.buffer.emit r.1 } := by
  induction declarations generalizing g with
  | nil => exact congrArg Except.ok (emit_nil g).symm
  | cons d rest ih =>
    cases d with
    | variable_ d =>
      rw [initialization, Compile.initialization]
      cases literalWord d.value with
      | error e => rfl
      | ok value =>
        refine eq_map_pure (ih _) fun r => ?_
        -- The value, its slot and the store are added in two steps, which are one.
        have hbuffer : ((g.emit [.push value]).emitSlot d.name [.sstore]).buffer.emit r.1
            = g.buffer.emit
                (.push value :: pushNat (g.slots.storage.number d.name).1 :: .sstore :: r.1) := by
          show ((g.buffer.emit [.push value]).emit [pushNat _, .sstore]).emit r.1 = _
          rw [CodeBuffer.emit_emit, CodeBuffer.emit_emit]
          rfl
        exact congrArg (Generator.mk _) hbuffer
    | mapping d =>
      rw [initialization, Compile.initialization]
      exact ih _
    | function f =>
      rw [initialization, Compile.initialization]
      exact ih g

end Generator

namespace Contract

open Generator

/-- The storage declarations of a contract are numbered in its scope. -/
theorem numbered_scope (c : Contract) : c.scope.Numbered := by
  intro name cell hcell
  by_cases hmem : name ∈ c.scope.cells.map Prod.fst
  · exact hmem
  · have hnone : c.scope.cell? name = none := lookup_eq_none_iff.2 hmem
    rw [hnone] at hcell
    cases hcell

/-- After the initial values the slots are those of the scope, whatever the declarations are. -/
theorem initialization_follows (c : Contract)
    (hnodup : (c.declarations.map Declaration.name).Nodup) :
    Follows GenerationError.compile
      (fun r g => r.2 = c.scope.storage ∧ g.buffer.finish = .ok r.1
        ∧ ({ slots := g.slots } : Generator).Settled c.scope)
      (Compile.initialization {} c.declarations)
      ((Generator.initialization {} c.declarations).mapError GenerationError.compile) := by
  rw [initialization_eq]
  cases hinit : Compile.initialization {} c.declarations with
  | error e => exact .error e
  | ok r =>
    have hslots : r.2 = c.scope.storage := by
      simpa [scope] using Compile.initialization_slots (by simpa using hnodup) hinit
    -- The code of the initial values has no jumps, so no target is open.
    have hfinish : (CodeBuffer.emit {} r.1).finish = .ok r.1 := by
      have hplain := CodeBuffer.finish_place (Compile.plain r.1)
      rwa [CodeBuffer.place_plain, Compile.settle, Compile.map_settle_plain] at hplain
    exact .ok ⟨hslots, hfinish, hslots, numbered_scope c⟩

/-- **One pass does what compilation does.** It fails with the same error, and never because of a
target that was left open, or it has the same program; and the storage slots it has taken then are
the places of the storage declarations. -/
theorem generate_follows (c : Contract) :
    Follows .compile (fun p r => r.1 = p ∧ r.2.storage = c.scope.storage) c.compile c.generate := by
  unfold compile generate
  cases hrepeat : Compile.firstRepeat? [] (c.declarations.map Declaration.name) with
  | some name => exact .error _
  | none =>
    -- No name is declared twice, so the slots are the places of the declarations.
    obtain ⟨hnodup, -⟩ := Compile.nodup_of_firstRepeat? hrepeat
    refine (initialization_follows c hnodup).bind fun r g hr => ?_
    obtain ⟨code, slots⟩ := r
    obtain ⟨rfl, hfinish, hsettled⟩ := hr
    simp only [hfinish]
    refine (functions_follow c.functions hsettled).bind fun codes r hcodes => ?_
    obtain ⟨rfl, hend⟩ := hcodes
    exact .ok ⟨rfl, hend.storage⟩

/-- A contract that compiles goes through in one pass, with the same program. -/
theorem generate_eq_ok {c : Contract} {p : Program} (h : c.compile = .ok p) :
    ∃ slots, c.generate = .ok (p, slots) ∧ slots.storage = c.scope.storage := by
  have hfollows := generate_follows c
  rw [h] at hfollows
  generalize c.generate = result at hfollows
  cases hfollows with
  | ok hresult =>
    obtain ⟨rfl, hstorage⟩ := hresult
    exact ⟨_, rfl, hstorage⟩

end Contract

end Covenant
