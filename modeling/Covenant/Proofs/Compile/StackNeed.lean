import Covenant.Proofs.Compile.Precedence
import Covenant.Proofs.Machine.Operations
import Covenant.Proofs.Machine.Shapes
import Covenant.Proofs.Program.Binary

/-!
# The stack that compiled code needs

An operand needs one word, and an entry of a mapping one word below what the widest of its keys
needs. A tree of operators needs more on its right side only, where the value of the left side waits;
as a right operand binds more tightly than its operator, at most four values wait however long the
expression is. A test has the position behind it below, which makes five. Statements start and end
with an empty stack, so neither their number nor their nesting counts.

* `Term.need` is what an operand needs and `FunctionDeclaration.need` the most that an operand of a
  function does.
* `Straight` is code without jumps. `straight_expression` is where precedence comes in.
* `checks_function` says that the code of a function checks with room for five words more.
-/

namespace Covenant

/-! ### Needs -/

mutual

/-- How many words the code of an operand puts on the stack at once. -/
def Term.need : Term → Nat
  | .literal _ => 1
  | .ident _ => 1
  | .index _ keys => 1 + Term.needAll keys

/-- The largest need of several operands. -/
def Term.needAll : List Term → Nat
  | [] => 0
  | first :: rest => max first.need (Term.needAll rest)

end

mutual

/-- The operands that stand in a statement, both those that are read and those that are assigned. -/
def Statement.terms : Statement → List Term
  | .returns value => value.terms
  | .assign a => a.value.terms ++ a.target.terms
  | .declare v => v.value.terms
  | .branch condition thenBody elseBody =>
    condition.terms ++ (Statement.allTerms thenBody ++ Statement.armTerms elseBody)
  | .loop start condition step body =>
    start.value.terms ++ (condition.terms
      ++ (Statement.allTerms body ++ (step.value.terms ++ step.target.terms)))

/-- The operands that stand in several statements. -/
def Statement.allTerms : List Statement → List Term
  | [] => []
  | first :: rest => first.terms ++ Statement.allTerms rest

/-- The operands that stand in the second arm of a branch. -/
def Statement.armTerms : Option (List Statement) → List Term
  | none => []
  | some body => Statement.allTerms body

end

/-- The largest need of an operand of a function. -/
def FunctionDeclaration.need (f : FunctionDeclaration) : Nat :=
  Term.needAll (Statement.allTerms f.body)

/-- The need of operands in turn is the larger of the two needs. -/
theorem Term.needAll_append (xs ys : List Term) :
    Term.needAll (xs ++ ys) = max (Term.needAll xs) (Term.needAll ys) := by
  induction xs with
  | nil => simp [Term.needAll]
  | cons x rest ih => rw [List.cons_append, Term.needAll, ih, Term.needAll, Nat.max_assoc]

theorem Term.need_le_needAll {x : Term} {xs : List Term} (h : x ∈ xs) :
    x.need ≤ Term.needAll xs := by
  induction xs with
  | nil => cases h
  | cons y rest ih =>
    rw [Term.needAll]
    rcases List.mem_cons.1 h with rfl | hmem
    · exact Nat.le_max_left _ _
    · exact Nat.le_trans (ih hmem) (Nat.le_max_right _ _)

/-- What the code of a tree needs: the value of the left operand waits for the right one. -/
def Tree.need : Tree → Nat
  | .leaf x => x.need
  | .node _ l r => max l.need (1 + r.need)

theorem Operator.precedence_le (op : Operator) : op.precedence ≤ 3 := by
  cases op <;> simp [Operator.precedence]

/-- A grouped tree whose operators all bind at least so tightly has at most one value waiting for
each precedence from there on. -/
theorem Tree.need_le {t : Tree} {p n : Nat} (hgrouped : t.Grouped) (hp : p ≤ 4)
    (hops : ∀ o ∈ t.operators, p ≤ o.precedence) (hterms : ∀ x ∈ t.terms, x.need ≤ n) :
    t.need ≤ (4 - p) + n := by
  induction t generalizing p with
  | leaf x =>
    have hx := hterms x List.mem_cons_self
    rw [Tree.need]
    omega
  | node op l r ihl ihr =>
    obtain ⟨hleft, hright, hl, hr⟩ := hgrouped
    simp only [Tree.terms, List.mem_append] at hterms
    have hop : p ≤ op.precedence := hops op (by simp [Tree.operators])
    have htop := op.precedence_le
    -- The left operand may bind as loosely as the operator, and the right one binds more tightly.
    have hneedl := ihl hl (Nat.le_succ_of_le htop) hleft fun x hx => hterms x (Or.inl hx)
    have hneedr := ihr hr (Nat.succ_le_succ htop) hright fun x hx => hterms x (Or.inr hx)
    rw [Tree.need]
    omega

/-! ### Straight code -/

/-- Code without jumps that leads from one shape to another, and through none that is larger than the
bound. -/
inductive Straight (bound : Nat) : Shape → List Instruction → Shape → Prop where
  | nil (shape : Shape) : Straight bound shape [] shape
  | cons {i : Instruction} {xs : List Instruction} {shape shape' : Shape}
      (hplain : i ≠ .jump ∧ i ≠ .jumpi) (hwords : i.effect.1 ≤ shape.length)
      (hbounded : (i.trace shape).length ≤ bound) (hrest : Straight bound (i.trace shape) xs shape') :
      Straight bound shape (i :: xs) shape'

variable {bound n pc : Nat} {code xs ys : List Instruction} {shape shape' shape'' : Shape}

/-- Straight code in turn is straight. -/
theorem Straight.append (hx : Straight bound shape xs shape')
    (hy : Straight bound shape' ys shape'') : Straight bound shape (xs ++ ys) shape'' := by
  induction hx with
  | nil shape => exact hy
  | cons hplain hwords hbounded _ ih => exact .cons hplain hwords hbounded (ih hy)

/-- A constant is pushed where there is room for it. -/
theorem Straight.push {w : Word} (hroom : shape.length + 1 ≤ bound)
    (hrest : Straight bound (some w :: shape) xs shape') :
    Straight bound shape (.push w :: xs) shape' :=
  .cons (by simp) (Nat.zero_le _) hroom hrest

/-- An instruction that takes the words on top and puts one on the stack, other than a constant. -/
theorem Straight.replace {i : Instruction} (top : Shape) (heffect : i.effect = (top.length, 1))
    (hpush : ∀ v, i ≠ .push v) (hroom : shape.length + 1 ≤ bound)
    (hrest : Straight bound (none :: shape) xs shape') :
    Straight bound (top ++ shape) (i :: xs) shape' := by
  have htrace : i.trace (top ++ shape) = none :: shape := by
    rw [trace_eq_drop hpush, heffect, List.drop_left]
    rfl
  have hplain : i ≠ .jump ∧ i ≠ .jumpi := by
    constructor
    · rintro rfl
      exact absurd (congrArg Prod.snd heffect) (by simp [Instruction.effect])
    · rintro rfl
      exact absurd (congrArg Prod.snd heffect) (by simp [Instruction.effect])
  refine .cons hplain ?_ (htrace ▸ hroom) (htrace ▸ hrest)
  rw [heffect, List.length_append]
  exact Nat.le_add_right _ _

/-- An instruction that takes a place and a word to be put there. -/
theorem Straight.store {i : Instruction} {place w : Option Word} (hstore : i = .mstore ∨ i = .sstore)
    (hroom : shape.length ≤ bound) (hrest : Straight bound shape xs shape') :
    Straight bound (place :: w :: shape) (i :: xs) shape' := by
  rcases hstore with rfl | rfl
  · exact .cons (by simp) (by simp [Instruction.effect]) hroom hrest
  · exact .cons (by simp) (by simp [Instruction.effect]) hroom hrest

theorem ChecksFrom.single {i : Instruction} (hget : code[pc]? = some i)
    (h : Checks code bound (shapeAt code pc) i) : ChecksFrom code bound pc (pc + 1) := by
  intro q j hle hlt hq
  have heq : q = pc := by omega
  subst heq
  rw [hget] at hq
  cases hq
  exact h

/-- Stretches that check one behind the other check together. -/
theorem ChecksFrom.trans {p q r : Nat} (hpq : ChecksFrom code bound p q)
    (hqr : ChecksFrom code bound q r) : ChecksFrom code bound p r := by
  intro pc i hle hlt hget
  rcases Nat.lt_or_ge pc q with hlow | hhigh
  · exact hpq pc i hle hlow hget
  · exact hqr pc i hhigh hlt hget

/-- Straight code checks wherever it stands, and the shape behind it is the one it leads to. -/
theorem Straight.placed (h : Straight bound shape xs shape') (hcode : CodeAt code pc xs)
    (hshape : shapeAt code pc = shape) :
    shapeAt code (pc + xs.length) = shape' ∧ ChecksFrom code bound pc (pc + xs.length) := by
  induction h generalizing pc with
  | nil shape =>
    refine ⟨hshape, fun q i hle hlt => ?_⟩
    rw [List.length_nil] at hlt
    omega
  | @cons i xs shape shape' hplain hwords hbounded hrest ih =>
    obtain ⟨hget, hcode⟩ := codeAt_cons.1 hcode
    have hnext : shapeAt code (pc + 1) = i.trace shape := by
      rw [shapeAt_succ hget, flow_eq_trace hplain.1, hshape]
    obtain ⟨hend, hchecks⟩ := ih hcode hnext
    -- Without a jump there is no target to check.
    have hcheck : Checks code bound (shapeAt code pc) i := by
      rw [hshape]
      refine ⟨hwords, hbounded, ?_⟩
      rintro (rfl | rfl)
      · exact absurd rfl hplain.1
      · exact absurd rfl hplain.2
    rw [List.length_cons, show pc + (xs.length + 1) = pc + 1 + xs.length by omega]
    exact ⟨hend, (ChecksFrom.single hget hcheck).trans hchecks⟩

namespace Compile

variable {scope : Scope} {locals after : Numbering} {position : Nat}

/-! ### Expressions -/

/-- A name is read with room for one word, whatever it is taken for. -/
theorem straight_readName {name : String} (h : readName scope locals name = .ok xs)
    (hroom : shape.length + 1 ≤ bound) : ∃ known, Straight bound shape xs (known :: shape) := by
  unfold readName at h
  split at h
  · cases h
    exact ⟨none, .push hroom (.replace [_] rfl (by simp) hroom (.nil _))⟩
  · cases h
    exact ⟨none, .push hroom (.replace [_] rfl (by simp) hroom (.nil _))⟩
  · cases h
  · simp only [bind_eq_ok, pure_eq_ok] at h
    obtain ⟨key, -, rfl⟩ := h
    exact ⟨none, .replace [] rfl (by simp) hroom (.nil _)⟩

mutual

/-- The code of an operand puts one word on the stack, and on the way no more than it needs. -/
theorem straight_term : ∀ (x : Term) {shape : Shape} {xs : List Instruction},
    term scope locals x = .ok xs → shape.length + x.need ≤ bound →
    ∃ known, Straight bound shape xs (known :: shape)
  | .literal value, shape, xs, h, hroom => by
    obtain ⟨w, -, rfl⟩ := term_literal_ok h
    exact ⟨some w, .push hroom (.nil _)⟩
  | .ident name, shape, xs, h, hroom => by
    rw [term] at h
    exact straight_readName h hroom
  | .index base keys, shape, xs, h, hroom => by
    obtain ⟨slot, rest, -, hrest, rfl⟩ := term_index_ok h
    rw [Term.need] at hroom
    have hroom' : shape.length + 1 ≤ bound := by omega
    have hroomKeys : shape.length + 1 + Term.needAll keys ≤ bound := by omega
    obtain ⟨known, hkeys⟩ := straight_keyCode keys hrest hroomKeys (some (.ofNat slot))
    have hload : Straight bound (known :: shape) [.sload] (none :: shape) :=
      .replace [known] rfl (by simp) hroom' (.nil _)
    exact ⟨none, .push hroom' (hkeys.append hload)⟩

/-- The code of keys changes the address on top of the stack. -/
theorem straight_keyCode : ∀ (keys : List Term) {shape : Shape} {xs : List Instruction},
    keyCode scope locals keys = .ok xs → shape.length + 1 + Term.needAll keys ≤ bound →
    ∀ address, ∃ known, Straight bound (address :: shape) xs (known :: shape)
  | [], shape, xs, h, hroom, address => by
    cases h
    exact ⟨address, .nil _⟩
  | key :: keys, shape, xs, h, hroom, address => by
    obtain ⟨first, rest, hfirst, hrest, rfl⟩ := keyCode_cons_ok h
    rw [Term.needAll] at hroom
    have hroom' : shape.length + 1 ≤ bound := by omega
    have hroomKey : (address :: shape).length + key.need ≤ bound := by
      rw [List.length_cons]
      omega
    have hroomKeys : shape.length + 1 + Term.needAll keys ≤ bound := by omega
    obtain ⟨k, hkey⟩ := straight_term key hfirst hroomKey
    obtain ⟨known, hkeys⟩ := straight_keyCode keys hrest hroomKeys none
    refine ⟨known, hkey.append ?_⟩
    exact .replace [k, address] rfl (by simp) hroom' (.replace [none] rfl (by simp) hroom' hkeys)

end

/-- The code of a tree puts one word on the stack, with as much room as the tree needs. -/
theorem straight_tree {g : Term → List Instruction} {t : Tree}
    (hleaf : ∀ x ∈ t.terms, term scope locals x = .ok (g x)) (hroom : shape.length + t.need ≤ bound) :
    ∃ known, Straight bound shape (t.code g) (known :: shape) := by
  induction t generalizing shape with
  | leaf x => exact straight_term x (hleaf x List.mem_cons_self) hroom
  | node op l r ihl ihr =>
    simp only [Tree.terms, List.mem_append] at hleaf
    rw [Tree.need] at hroom
    have hrooml : shape.length + l.need ≤ bound := by omega
    obtain ⟨a, hl⟩ := ihl (fun x hx => hleaf x (Or.inl hx)) hrooml
    -- The value of the left operand is on the stack while the right one is computed.
    have hroomr : (a :: shape).length + r.need ≤ bound := by
      rw [List.length_cons]
      omega
    obtain ⟨b, hr⟩ := ihr (fun x hx => hleaf x (Or.inr hx)) hroomr
    have hop : Straight bound (b :: a :: shape) [.binary op] (none :: shape) :=
      .replace [b, a] rfl (by simp) (by omega) (.nil _)
    exact ⟨none, (hl.append hr).append hop⟩

/-- The code of an expression puts one word on the stack. On the way it needs four words more than
its operands, one for each precedence. -/
theorem straight_expression {e : Expression} (h : expression scope locals e = .ok xs)
    (hneed : Term.needAll e.terms ≤ n) (hroom : shape.length + 4 + n ≤ bound) :
    ∃ known, Straight bound shape xs (known :: shape) := by
  obtain ⟨t, htree, hleaf, rfl⟩ := expression_tree h
  have hterms : ∀ x ∈ t.terms, x.need ≤ n := by
    intro x hx
    rw [terms_of_tree? htree] at hx
    exact Nat.le_trans (Term.need_le_needAll hx) hneed
  have hle : t.need ≤ (4 - 0) + n :=
    Tree.need_le (grouped_of_tree? htree) (Nat.zero_le _) (fun _ _ => Nat.zero_le _) hterms
  exact straight_tree hleaf (by omega)

/-- The code of an expression that starts with an empty stack leaves its value there. -/
theorem straight_value {e : Expression} (h : expression scope locals e = .ok xs)
    (hneed : Term.needAll e.terms ≤ n) (hroom : 5 + n ≤ bound) :
    ∃ known, Straight bound [] xs [known] := by
  have hroomValue : ([] : Shape).length + 4 + n ≤ bound := by
    rw [List.length_nil]
    omega
  exact straight_expression h hneed hroomValue

/-! ### Straight statements -/

/-- A declaration takes an empty stack to an empty stack. -/
theorem straight_localVariable {v : LocalVariable} (h : localVariable scope locals v = .ok (xs, after))
    (hneed : Term.needAll v.value.terms ≤ n) (hroom : 5 + n ≤ bound) : Straight bound [] xs [] := by
  obtain ⟨value, hvalue, rfl, -⟩ := localVariable_ok h
  obtain ⟨known, hcode⟩ := straight_value hvalue hneed hroom
  have htwo : [known].length + 1 ≤ bound := by
    rw [List.length_singleton]
    omega
  exact hcode.append (.push htwo (.store (Or.inl rfl) (Nat.zero_le _) (.nil _)))

/-- The code of a target takes the word to be stored off the stack. -/
theorem straight_store {target : Expression} {x : Term} {w : Option Word}
    (h : Compile.store scope locals target x = .ok xs) (hroom : 1 + x.need ≤ bound)
    (htwo : 2 ≤ bound) : Straight bound [w] xs [] := by
  cases x with
  | literal value => cases h
  | ident name =>
    rw [Compile.store, writeName] at h
    split at h
    · cases h
      exact .push htwo (.store (Or.inl rfl) (Nat.zero_le _) (.nil _))
    · cases h
      exact .push htwo (.store (Or.inr rfl) (Nat.zero_le _) (.nil _))
    · cases h
    · simp only [bind_eq_ok, pure_eq_ok] at h
      obtain ⟨key, -, rfl⟩ := h
      exact .push htwo (.store (Or.inl rfl) (Nat.zero_le _) (.nil _))
  | index base keys =>
    obtain ⟨place, hplace, rfl⟩ := store_index_ok h
    obtain ⟨slot, rest, -, hrest, rfl⟩ := address_ok hplace
    rw [Term.need] at hroom
    have hroomKeys : [w].length + 1 + Term.needAll keys ≤ bound := by
      rw [List.length_singleton]
      omega
    obtain ⟨known, hkeys⟩ := straight_keyCode keys hrest hroomKeys (some (.ofNat slot))
    exact .push htwo (hkeys.append (.store (Or.inr rfl) (Nat.zero_le _) (.nil _)))

/-- An assignment takes an empty stack to an empty stack. -/
theorem straight_assignment {a : Assignment} (h : assignment scope locals a = .ok xs)
    (hneed : Term.needAll (a.value.terms ++ a.target.terms) ≤ n) (hroom : 5 + n ≤ bound) :
    Straight bound [] xs [] := by
  obtain ⟨target, value, rest, htarget, hvalue, hstore, rfl⟩ := assignment_ok h
  rw [Term.needAll_append] at hneed
  have hmem := Term.need_le_needAll (mem_of_singleTerm? htarget)
  have hneedValue : Term.needAll a.value.terms ≤ n := by omega
  obtain ⟨known, hcode⟩ := straight_value hvalue hneedValue hroom
  exact hcode.append (straight_store hstore (by omega) (by omega))

/-! ### Jumps -/

/-- The code of a test under the position of a target: behind it the stack is empty, and it checks
if the stack is to be empty at the target too. -/
theorem checks_test {target : Nat} {condition : Expression} {test : List Instruction}
    (h : expression scope locals condition = .ok test)
    (hcode : CodeAt code pc (pushNat target :: test ++ [.jumpi]))
    (hneed : Term.needAll condition.terms ≤ n) (hroom : 5 + n ≤ bound)
    (hshape : shapeAt code pc = []) :
    shapeAt code (pc + test.length + 2) = []
      ∧ (Lands code target [] → ChecksFrom code bound pc (pc + test.length + 2)) := by
  have hroomTest : [some (Word.ofNat target)].length + 4 + n ≤ bound := by
    rw [List.length_singleton]
    omega
  obtain ⟨known, htest⟩ := straight_expression h hneed hroomTest
  have hstraight : Straight bound [] (pushNat target :: test) [known, some (.ofNat target)] :=
    .push (by rw [List.length_nil]; omega) htest
  obtain ⟨hbefore, hjumpi⟩ := codeAt_append.1 hcode
  obtain ⟨hend, hchecks⟩ := hstraight.placed hbefore hshape
  obtain ⟨hget, -⟩ := codeAt_cons.1 hjumpi
  rw [List.length_cons] at hend hchecks hget
  rw [show pc + test.length + 2 = pc + (test.length + 1) + 1 by omega]
  constructor
  · rw [shapeAt_succ hget, hend]
    rfl
  · intro hlands
    -- The target is below the word that is tested, where straight code has left it.
    refine hchecks.trans (.single hget ?_)
    rw [hend]
    exact ⟨Nat.le_refl _, Nat.zero_le _, fun _ => ⟨target, rfl, hlands⟩⟩

/-- The jump at the end of a piece of code: nothing comes to the place behind it, and it checks if the
stack at its target is the one it leaves. -/
theorem checks_goto {target : Nat} (hcode : CodeAt code pc [pushNat target, .jump])
    (hshape : shapeAt code pc = shape) (hroom : shape.length + 1 ≤ bound) :
    shapeAt code (pc + 2) = []
      ∧ (Lands code target shape → ChecksFrom code bound pc (pc + 2)) := by
  simp only [pushNat, codeAt_cons] at hcode
  obtain ⟨hpush, hjump, -⟩ := hcode
  have hnext : shapeAt code (pc + 1) = some (.ofNat target) :: shape := by
    rw [shapeAt_succ hpush, hshape]
    rfl
  constructor
  · exact shapeAt_succ hjump
  · intro hlands
    have hfirst : Checks code bound (shapeAt code pc) (.push (.ofNat target)) := by
      rw [hshape]
      exact ⟨Nat.zero_le _, hroom, by simp⟩
    refine (ChecksFrom.single hpush hfirst).trans (.single hjump ?_)
    rw [hnext]
    exact ⟨by simp [Instruction.effect], Nat.le_of_succ_le hroom, fun _ => ⟨target, rfl, hlands⟩⟩

/-! ### Statements -/

/-- The code between two positions checks, and the stack is empty behind it. -/
structure Closes (code : List Instruction) (bound first last : Nat) : Prop where
  empty : shapeAt code last = []
  checks : ChecksFrom code bound first last

theorem Closes.trans {p q r : Nat} (hpq : Closes code bound p q) (hqr : Closes code bound q r) :
    Closes code bound p r :=
  ⟨hqr.empty, hpq.checks.trans hqr.checks⟩

/-- Straight code from an empty stack to an empty stack closes. -/
theorem closes_of_straight (h : Straight bound [] xs []) (hcode : CodeAt code pc xs)
    (hshape : shapeAt code pc = []) : Closes code bound pc (pc + xs.length) := by
  obtain ⟨hend, hchecks⟩ := h.placed hcode hshape
  exact ⟨hend, hchecks⟩

/-- A jump to the end of the code is right with any shape. -/
theorem lands_end (code : List Instruction) (shape : Shape) : Lands code code.length shape :=
  ⟨Nat.le_refl _, fun h => absurd h (Nat.lt_irrefl _)⟩

mutual

/-- The code of a statement that starts with an empty stack checks and ends with one. -/
theorem closes_statement (hroom : 5 + n ≤ bound) : ∀ (s : Statement) {position : Nat}
    {locals after : Numbering} {symbols : List Symbol},
    statement scope position locals s = .ok (symbols, after) → Placed code position symbols →
    Term.needAll s.terms ≤ n → shapeAt code position = [] →
    Closes code bound position (position + symbols.length)
  | .returns value, position, locals, after, symbols, h, hplaced, hneed, hshape => by
    obtain ⟨valueCode, hvalue, hcode, hjump⟩ := returns_placed h hplaced
    obtain ⟨valueCode', hvalue', rfl, -⟩ := statement_returns_ok h
    cases hvalue.symm.trans hvalue'
    rw [Statement.terms] at hneed
    obtain ⟨known, hstraight⟩ := straight_value hvalue hneed hroom
    obtain ⟨hend, hchecks⟩ := hstraight.placed hcode hshape
    have htwo : [known].length + 1 ≤ bound := by
      rw [List.length_singleton]
      omega
    obtain ⟨hempty, hgoto⟩ := checks_goto hjump hend htwo
    rw [List.length_append, length_plain, ← Nat.add_assoc]
    exact ⟨hempty, hchecks.trans (hgoto (lands_end code _))⟩
  | .assign a, position, locals, after, symbols, h, hplaced, hneed, hshape => by
    obtain ⟨xs, hassign, rfl, -⟩ := statement_assign_ok h
    rw [placed_plain] at hplaced
    rw [Statement.terms] at hneed
    rw [length_plain]
    exact closes_of_straight (straight_assignment hassign hneed hroom) hplaced hshape
  | .declare v, position, locals, after, symbols, h, hplaced, hneed, hshape => by
    obtain ⟨xs, hdeclare, rfl⟩ := statement_declare_ok h
    rw [placed_plain] at hplaced
    rw [Statement.terms] at hneed
    rw [length_plain]
    exact closes_of_straight (straight_localVariable hdeclare hneed hroom) hplaced hshape
  | .branch condition thenBody elseBody, position, locals, after, symbols, h, hplaced, hneed,
      hshape => by
    obtain ⟨test, thenCode, middle, elseCode, skip, thenStart, elseStart, rfl, rfl, hlen, hle, htest,
      hthen, helse, htestAt, hthenAt, hskip, helseAt⟩ := branch_placed h hplaced
    rw [Statement.terms, Term.needAll_append, Term.needAll_append] at hneed
    rw [hlen] at hle ⊢
    obtain ⟨hempty, htestChecks⟩ := checks_test htest htestAt (by omega) hroom hshape
    have hthenCloses := closes_block hroom thenBody hthen hthenAt (by omega) hempty
    obtain ⟨helseEmpty, helseCloses⟩ :=
      closes_elseArm hroom elseBody helse helseAt hskip (by omega) hle hthenCloses.empty
    -- Only now is the shape known at the position to which the test jumps.
    have htestCloses := htestChecks ⟨by omega, fun _ => helseEmpty⟩
    exact ⟨helseCloses.empty,
      htestCloses.trans (hthenCloses.checks.trans helseCloses.checks)⟩
  | .loop start condition step body, position, locals, after, symbols, h, hplaced, hneed,
      hshape => by
    obtain ⟨startCode, inner, test, bodyCode, stepCode, head, bodyStart, rfl, rfl, hlen, hle, hstart,
      htest, hbody, hstep, hstartAt, htestAt, hbodyAt, hstepAt, hjump⟩ := loop_placed h hplaced
    rw [Statement.terms, Term.needAll_append, Term.needAll_append, Term.needAll_append] at hneed
    rw [hlen] at hle htestAt ⊢
    have hstartCloses := closes_of_straight (straight_localVariable hstart (by omega) hroom) hstartAt
      hshape
    obtain ⟨hempty, htestChecks⟩ := checks_test htest htestAt (by omega) hroom hstartCloses.empty
    have hbodyCloses := closes_block hroom body hbody hbodyAt (by omega) hempty
    have hstepCloses := closes_of_straight (straight_assignment hstep (by omega) hroom) hstepAt
      hbodyCloses.empty
    have hone : ([] : Shape).length + 1 ≤ bound := by
      rw [List.length_nil]
      omega
    obtain ⟨hend, hgoto⟩ := checks_goto hjump hstepCloses.empty hone
    -- The test jumps behind the loop, and the loop back to the test.
    have htestCloses := htestChecks ⟨hle, fun _ => hend⟩
    have hback := hgoto ⟨by omega, fun _ => hstartCloses.empty⟩
    exact ⟨hend, hstartCloses.checks.trans (htestCloses.trans
      (hbodyCloses.checks.trans (hstepCloses.checks.trans hback)))⟩

/-- The code of a block that starts with an empty stack checks and ends with one. -/
theorem closes_block (hroom : 5 + n ≤ bound) : ∀ (statements : List Statement) {position : Nat}
    {locals after : Numbering} {symbols : List Symbol},
    block scope position locals statements = .ok (symbols, after) → Placed code position symbols →
    Term.needAll (Statement.allTerms statements) ≤ n → shapeAt code position = [] →
    Closes code bound position (position + symbols.length)
  | [], position, locals, after, symbols, h, hplaced, hneed, hshape => by
    obtain ⟨rfl, -⟩ := block_nil_ok h
    exact closes_of_straight (.nil []) codeAt_nil hshape
  | first :: rest, position, locals, after, symbols, h, hplaced, hneed, hshape => by
    obtain ⟨firstCode, middle, restCode, hfirst, hrest, rfl⟩ := block_cons_ok h
    obtain ⟨hfirstAt, hrestAt⟩ := placed_append.1 hplaced
    rw [Statement.allTerms, Term.needAll_append] at hneed
    have hfirstCloses := closes_statement hroom first hfirst hfirstAt (by omega) hshape
    have hrestCloses := closes_block hroom rest hrest hrestAt (by omega) hfirstCloses.empty
    rw [List.length_append, ← Nat.add_assoc]
    exact hfirstCloses.trans hrestCloses

/-- The end of the first arm of a branch and the second arm: both at the start of the second arm and
behind it the stack is empty. -/
theorem closes_elseArm (hroom : 5 + n ≤ bound) : ∀ (elseBody : Option (List Statement))
    {position : Nat} {locals after : Numbering} {symbols : List Symbol} {skip : List Instruction},
    elseArm scope position locals elseBody = .ok (symbols, skip, after) →
    Placed code (position + skip.length) symbols → CodeAt code position skip →
    Term.needAll (Statement.armTerms elseBody) ≤ n →
    position + skip.length + symbols.length ≤ code.length → shapeAt code position = [] →
    shapeAt code (position + skip.length) = []
      ∧ Closes code bound position (position + skip.length + symbols.length)
  | none, position, locals, after, symbols, skip, h, hplaced, hskip, hneed, hle, hshape => by
    obtain ⟨rfl, rfl, -⟩ := elseArm_none_ok h
    exact ⟨hshape, closes_of_straight (.nil []) codeAt_nil hshape⟩
  | some body, position, locals, after, symbols, skip, h, hplaced, hskip, hneed, hle, hshape => by
    obtain ⟨hblock, rfl⟩ := elseArm_some_ok h
    have hone : ([] : Shape).length + 1 ≤ bound := by
      rw [List.length_nil]
      omega
    obtain ⟨hempty, hgoto⟩ := checks_goto hskip hshape hone
    have hcloses := closes_block hroom body hblock hplaced hneed hempty
    exact ⟨hempty, hcloses.empty, (hgoto ⟨hle, fun _ => hcloses.empty⟩).trans hcloses.checks⟩

end

/-- The code of a body checks from where it starts to its end. -/
theorem checks_bodyFrom (hroom : 5 + n ≤ bound) {statements : List Statement}
    {symbols : List Symbol} (h : bodyFrom scope position locals statements = .ok symbols)
    (hplaced : Placed code position symbols)
    (hneed : Term.needAll (Statement.allTerms statements) ≤ n) (hshape : shapeAt code position = []) :
    ChecksFrom code bound position (position + symbols.length) := by
  induction statements generalizing position locals symbols with
  | nil =>
    cases h
    exact (closes_of_straight (.nil []) codeAt_nil hshape).checks
  | cons first rest ih =>
    rw [Statement.allTerms, Term.needAll_append] at hneed
    -- A `return` that comes last leaves its value on the stack, so it does not close.
    by_cases hlast : ∃ value, first = .returns value ∧ rest = []
    · obtain ⟨value, rfl, rfl⟩ := hlast
      obtain ⟨valueCode, hvalue, rfl⟩ := bodyFrom_last_ok h
      rw [placed_plain] at hplaced
      rw [Statement.terms] at hneed
      rw [length_plain]
      obtain ⟨known, hstraight⟩ := straight_value hvalue (by omega) hroom
      exact (hstraight.placed hplaced hshape).2
    · obtain ⟨firstCode, middle, restCode, hfirst, hrest, rfl⟩ :=
        bodyFrom_cons_ok (fun value hv => hlast ⟨value, hv⟩) h
      obtain ⟨hfirstAt, hrestAt⟩ := placed_append.1 hplaced
      have hcloses := closes_statement hroom first hfirst hfirstAt (by omega) hshape
      rw [List.length_append, ← Nat.add_assoc]
      exact hcloses.checks.trans (ih hrest hrestAt (by omega) hcloses.empty)

/-- The code of a function checks with room for five words more than its operands need. -/
theorem checks_function {f : FunctionDeclaration} {code : FunctionCode}
    (h : Compile.function scope f = .ok code) :
    ChecksFrom code.body (5 + f.need) 0 code.body.length := by
  obtain ⟨-, -, hbody⟩ := function_ok h
  obtain ⟨symbols, hfrom, hsettle⟩ := body_ok hbody
  have hplaced : Placed code.body 0 symbols := by
    rw [hsettle]
    exact placed_settle symbols
  have hlen : code.body.length = 0 + symbols.length := by
    rw [hsettle, Nat.zero_add]
    exact List.length_map _
  rw [hlen]
  exact checks_bodyFrom (Nat.le_refl _) hfrom hplaced (Nat.le_refl _) rfl

end Compile

namespace Machine

variable {ω : Type} [Stores ω] {m m' : Machine ω} {address : Word} {c : Contract} {p : Program}
  {i : Nat} {f : FunctionDeclaration}

/-- No call of a function ends for want of room on a stack that has what the function needs. -/
theorem callWords_ne_stackOverflow (hcompile : c.compile = .ok p) (hsize : p.Addressable)
    (hloaded : m.loaded = some ⟨p, address⟩) (hf : c.functions[i]? = some f)
    (hroom : 5 + f.need ≤ m.limits.stack) {fuel : Nat} {arguments : List Word}
    {r : Except Fault (Option Word)} (h : m.callWords fuel i arguments = some (r, m'))
    (limit : Nat) : r ≠ .error (.stackOverflow limit) := by
  rcases callWords_eq_some hloaded h with ⟨e, rfl, he, -⟩ | ⟨code, hget, hrun⟩
  · rcases he with rfl | ⟨expected, rfl⟩
    · simp
    · simp
  · obtain ⟨f', hf', hfunction⟩ := (Contract.compile_function hcompile i code).1 hget
    cases hf.symm.trans hf'
    obtain ⟨o, horun, rfl, -⟩ := runCode_eq_some hrun
    have hne := result_ne_stackOverflow (Compile.checks_function hfunction) (hsize.body_lt hget) hroom
      horun limit
    -- Running code passes the fault of the run on.
    intro herror
    cases hresult : o.result with
    | ok => rw [hresult] at herror; cases herror
    | error e =>
      rw [hresult] at herror
      cases herror
      exact hne hresult

/-- **Compiled code needs a bounded stack.** A call of a function of a contract that compiles, with
any arguments, limits and stores, never has more than five words more on the stack than the widest of
the function's operands needs. So on a stack with that much room it does not end for want of room,
however long its expressions are, however deep its blocks and however often its loops turn. -/
theorem compiled_code_needs_bounded_stack (hcompile : c.compile = .ok p) (hsize : p.Addressable)
    (hloaded : m.loaded = some ⟨p, address⟩) (hf : c.functions[i]? = some f) :
    (∃ code, p.functions.get? i = some code ∧ ∀ arguments f' s',
        Reaches m.limits address code.body { memory := bind code.parameters arguments } m.stores
          f' s' → f'.stack.length ≤ 5 + f.need)
      ∧ (5 + f.need ≤ m.limits.stack →
        (∀ fuel arguments r m', m.callWords fuel i arguments = some (r, m') →
          ∀ limit, r ≠ .error (.stackOverflow limit))
        ∧ ∀ fuel values r m', m.call fuel i values = some (r, m') →
          ∀ limit, r ≠ .error (.stackOverflow limit)) := by
  obtain ⟨code, hget, hfunction⟩ := Contract.exists_code hcompile hf
  refine ⟨⟨code, hget, ?_⟩, ?_⟩
  · intro arguments f' s' hreach
    have hstart := inShape_start code.body (5 + f.need) (bind code.parameters arguments)
    exact (hstart.reaches (Compile.checks_function hfunction) (hsize.body_lt hget) hreach).bounded
  · intro hroom
    constructor
    · intro fuel arguments r m' h
      exact callWords_ne_stackOverflow hcompile hsize hloaded hf hroom h
    · intro fuel values r m' h
      rcases call_eq_some h with ⟨e, -, rfl, -⟩ | ⟨words, -, hcall⟩
      · simp
      · exact callWords_ne_stackOverflow hcompile hsize hloaded hf hroom hcall

/-- A test in which a value waits at each precedence, below an entry with a key. -/
def waitingSource : String :=
  "contract Waiting " ++ Text.braced ("mapping(Int => Int) paid "
    ++ "func due(a: Int, b: Int, k: Int) -> Int " ++ Text.braced ("paid[k] = b "
      ++ "if a || b == a + a * paid[k] " ++ Text.braced "return 1" ++ " return 2"))

/-- The function needs two words for its entry, so seven in all. It has a result on a stack of seven
words, and overflows one of six. -/
theorem waiting_needs_seven_words :
    ∃ c p f m m', Contract.ofSource waitingSource = .ok c ∧ c.compile = .ok p ∧ p.Addressable
      ∧ c.functions[0]? = some f ∧ f.need = 2
      ∧ m = (⟨{}, ⟨7, none⟩, some ⟨p, .zero⟩, {}, .ready⟩ : Machine MemoryStores)
      ∧ m.callWords 100 0 [.ofNat 0, .ofNat 5, .ofNat 3] = some (.ok (some (.ofNat 2)), m')
      ∧ (∃ m₁, callWords { m with limits := ⟨6, none⟩ } 100 0 [.ofNat 0, .ofNat 5, .ofNat 3]
          = some (.error (.stackOverflow 6), m₁))
      ∧ ∀ fuel arguments r m₁, m.callWords fuel 0 arguments = some (r, m₁) →
        ∀ limit, r ≠ .error (.stackOverflow limit) := by
  have hrun : ((Contract.ofSource waitingSource).toOption.any fun c =>
      c.compile.toOption.any fun p =>
        decide p.Addressable && c.functions[0]?.any fun f => decide (f.need = 2) &&
          ((callWords (ω := MemoryStores) ⟨{}, ⟨7, none⟩, some ⟨p, .zero⟩, {}, .ready⟩ 100 0
              [.ofNat 0, .ofNat 5, .ofNat 3]).any fun r =>
            decide (r.1.toOption = some (some (.ofNat 2)))) &&
          (callWords (ω := MemoryStores) ⟨{}, ⟨6, none⟩, some ⟨p, .zero⟩, {}, .ready⟩ 100 0
              [.ofNat 0, .ofNat 5, .ofNat 3]).any fun r =>
            decide (r.1 = .error (.stackOverflow 6))) = true := by
    decide +kernel
  obtain ⟨c, hc, hrun⟩ := exists_ok_of_any hrun
  obtain ⟨p, hp, hrun⟩ := exists_ok_of_any hrun
  rw [Bool.and_eq_true, decide_eq_true_eq] at hrun
  obtain ⟨haddr, hrun⟩ := hrun
  obtain ⟨f, hf, hrun⟩ := (Option.any_eq_true _ _).1 hrun
  rw [Bool.and_eq_true, Bool.and_eq_true, decide_eq_true_eq] at hrun
  obtain ⟨⟨hneed, henough⟩, hshort⟩ := hrun
  obtain ⟨⟨r, m'⟩, hcall, hr⟩ := (Option.any_eq_true _ _).1 henough
  rw [decide_eq_true_eq, toOption_eq_some] at hr
  subst hr
  obtain ⟨⟨r, m₁⟩, hoverflow, hr⟩ := (Option.any_eq_true _ _).1 hshort
  rw [decide_eq_true_eq] at hr
  subst hr
  obtain ⟨-, hroom⟩ := compiled_code_needs_bounded_stack (ω := MemoryStores)
    (m := ⟨{}, ⟨7, none⟩, some ⟨p, .zero⟩, {}, .ready⟩) hp haddr rfl hf
  have hwords := (hroom (by rw [hneed])).1
  exact ⟨c, p, f, _, m', hc, hp, haddr, hf, hneed, rfl, hcall, ⟨m₁, hoverflow⟩, hwords⟩

end Machine

end Covenant
