import Covenant.Proofs.Compile.Agreement
import Covenant.Proofs.Machine.Leads

/-!
# Compiled code does what the tree means

Code leads from a frame that agrees with a state to wherever the evaluation of what it was compiled
from leads. Every lemma here has one form: if the evaluation gives a value, and the frame behind the
code with that value leads to `Q`, then the frame in front of the code leads to `Q`; if the evaluation
stops, then the frame leads to `Q` because `Q` accepts the fault (`Either`). For statements the same
is said of flows (`Continues`).

An evaluation that runs out of fuel has a machine that makes more turns than there was fuel: each
round of a loop counts at least one.

* `Evaluation.Trap.Raises` says which fault a trap is.
* `leads_expression` is about expressions, `leads_statement` about statements and `leads_bodyFrom`
  about a whole body.
-/

namespace Covenant

namespace Evaluation

/-- The faults of a machine that a trap stands for. -/
def Trap.Raises : Trap → Fault → Prop
  | .undefinedParameter name, e => ∃ key, Word.ofText name = .ok key ∧ e = .undefinedParameter key
  | .unsetLocal number, e => e = .missingMemorySlot (.ofNat number)
  | .missingCell address, e => e = .missingStorageKey address.hex
  | .divisionByZero, e => ∃ pc, e = .divisionByZero pc
  | .malformed, _ => False

/-- A property of the value, or one of the trap. -/
def Either {α : Type} (onTrap : Trap → Prop) (onValue : α → Prop) : Except Trap α → Prop
  | .ok a => onValue a
  | .error t => onTrap t

/-- What is said of a chain of two evaluations is said of the first, and then of the second. -/
theorem either_bind {α β : Type} {onTrap : Trap → Prop} {onValue : β → Prop} {x : Except Trap α}
    {f : α → Except Trap β} :
    Either onTrap onValue (x >>= f) ↔ Either onTrap (fun a => Either onTrap onValue (f a)) x := by
  cases x with
  | ok a => exact Iff.rfl
  | error t => exact Iff.rfl

theorem Either.imp {α : Type} {onTrap : Trap → Prop} {onValue onValue' : α → Prop}
    {x : Except Trap α} (h : Either onTrap onValue x) (himp : ∀ a, onValue a → onValue' a) :
    Either onTrap onValue' x := by
  cases x with
  | ok a => exact himp a h
  | error t => exact h

end Evaluation

open Evaluation (Either)

/-- What a simulation takes for granted: no step limit, a body that fits in memory, reliable stores,
and locals with names of their own. -/
structure Setting {ω : Type} [Stores ω] (limits : Limits) (code : List Instruction)
    (good : ω → Prop) (names : List String) : Prop where
  steps : limits.steps = none
  size : code.length < Text.indexBound
  reliable : Stores.Reliable good
  nodup : names.Nodup
  bound : names.length < Text.indexBound

/-- `Q` accepts every fault a trap stands for. -/
def Traps {ω : Type} [Stores ω] (limits : Limits) (program : Word) (code : List Instruction)
    (Q : Frame → ω → Prop) (s : ω) (t : Evaluation.Trap) : Prop :=
  ∀ e, t.Raises e → Accepts limits program code Q s e

namespace Compile

section Simulation

variable {ω : Type} [Stores ω] {limits : Limits} {program : Word} {code : List Instruction}
  {Q : Frame → ω → Prop} {good : ω → Prop} {names : List String} {s₀ s : ω}
  {σ : Evaluation.State} {memory : Memory} {stack : List Word} {pc k : Nat} {c : Contract}
  {locals after : Numbering} {position : Nat}

/-! ### Values -/

/-- Reading a storage cell. -/
theorem leads_cell (hset : Setting limits code good names)
    (hagrees : Agrees good names s₀ σ memory s) {address : Word} (hget : code[pc]? = some .sload)
    (hnext : Either (Traps limits program code Q s)
      (fun w => ∀ k', k ≤ k' → Leads limits program code Q ⟨w :: stack, memory, pc + 1, k'⟩ s)
      (σ.cell address)) :
    Leads limits program code Q ⟨address :: stack, memory, pc, k⟩ s := by
  refine Leads.sload hset.steps hget ?_
  rw [hagrees.readCell]
  unfold Evaluation.State.cell at hnext
  cases hcell : σ.cells address with
  | some w =>
    rw [hcell] at hnext
    exact hnext (k + 1) (by omega)
  | none =>
    rw [hcell] at hnext
    exact hnext _ rfl

/-- A local that is declared has its number among all locals of the function. -/
theorem getElem?_of_idxOf? {name : String} {i : Nat} (hknown : locals.names <+: names)
    (h : locals.names.idxOf? name = some i) : names[i]? = some name := by
  obtain ⟨rest, rfl⟩ := hknown
  obtain ⟨hlt, hname, -⟩ := List.findIdx?_eq_some_iff_getElem.1 h
  rw [List.getElem?_append_left hlt, List.getElem?_eq_getElem hlt, beq_iff_eq.1 hname]

/-- Reading a name. -/
theorem leads_readName (hset : Setting limits code good names)
    (hagrees : Agrees good names s₀ σ memory s) (hknown : locals.names <+: names) {name : String}
    (hname : IsName name) {xs : List Instruction} (h : readName c.scope locals name = .ok xs)
    (hcode : CodeAt code pc xs)
    (hnext : Either (Traps limits program code Q s)
      (fun w => ∀ k', k ≤ k' →
        Leads limits program code Q ⟨w :: stack, memory, pc + xs.length, k'⟩ s)
      (Evaluation.read c locals.names σ name)) :
    Leads limits program code Q ⟨stack, memory, pc, k⟩ s := by
  unfold Evaluation.read at hnext
  rcases readName_ok h with
    ⟨i, hlocal, rfl⟩ | ⟨hlocal, ⟨slot, hslot, rfl⟩ | ⟨hslot, key, hkey, rfl⟩⟩
  · -- A local keeps its number when more are declared, so memory has it under the number of `names`.
    rw [hlocal] at hnext
    simp only [pushNat, codeAt_cons] at hcode
    refine Leads.push hset.steps hcode.1 (Leads.mload hset.steps hcode.2.1 ?_)
    rw [hagrees.locals i name (getElem?_of_idxOf? hknown hlocal)]
    cases hvalue : σ.locals name with
    | some w =>
      simp only [hvalue] at hnext
      exact hnext (k + 1 + 1) (by omega)
    | none =>
      simp only [hvalue] at hnext
      exact hnext _ rfl
  · simp only [hlocal, hslot] at hnext
    simp only [pushNat, codeAt_cons] at hcode
    refine Leads.push hset.steps hcode.1 (leads_cell hset hagrees hcode.2.1 ?_)
    exact hnext.imp fun w hw k' hk' => hw k' (by omega)
  · simp only [hlocal, hslot] at hnext
    refine Leads.pushParam hset.steps (codeAt_cons.1 hcode).1 ?_
    rw [hagrees.parameters name key hname hkey]
    cases hvalue : σ.parameters name with
    | some w =>
      simp only [hvalue] at hnext
      exact hnext (k + 1) (by omega)
    | none =>
      simp only [hvalue] at hnext
      exact hnext _ ⟨key, hkey, rfl⟩

mutual

/-- The code of an operand puts its value on the stack. -/
theorem leads_term (hset : Setting limits code good names)
    (hagrees : Agrees good names s₀ σ memory s) (hknown : locals.names <+: names) :
    ∀ (x : Term) {pc k : Nat} {stack : List Word} {xs : List Instruction}, AreNames x.names →
    term c.scope locals x = .ok xs → CodeAt code pc xs →
    Either (Traps limits program code Q s)
      (fun w => ∀ k', k ≤ k' →
        Leads limits program code Q ⟨w :: stack, memory, pc + xs.length, k'⟩ s)
      (Evaluation.term c locals.names σ x) →
    Leads limits program code Q ⟨stack, memory, pc, k⟩ s
  | .literal value, pc, k, stack, xs, hnames, h, hcode, hnext => by
    obtain ⟨w, hw, rfl⟩ := term_literal_ok h
    rw [literalWord_ok hw] at hcode
    rw [Evaluation.term] at hnext
    exact Leads.push hset.steps (codeAt_cons.1 hcode).1 (hnext (k + 1) (by omega))
  | .ident name, pc, k, stack, xs, hnames, h, hcode, hnext => by
    rw [term] at h
    rw [Evaluation.term] at hnext
    rw [Term.names, areNames_cons] at hnames
    exact leads_readName hset hagrees hknown hnames.1 h hcode hnext
  | .index base keys, pc, k, stack, xs, hnames, h, hcode, hnext => by
    obtain ⟨slot, rest, hslot, hrest, rfl⟩ := term_index_ok h
    rw [Evaluation.term, Evaluation.either_bind] at hnext
    rw [Term.names, areNames_cons] at hnames
    simp only [List.cons_append, codeAt_cons, codeAt_append, pushNat] at hcode
    obtain ⟨hpush, hkeys, hload, -⟩ := hcode
    -- The slot, then the keys take it to the cell, then the cell is read.
    refine Leads.push hset.steps hpush ?_
    refine leads_keyCode hset hagrees hknown keys hnames.2 hrest hkeys ?_
    refine hnext.imp fun ws hws k' hk' => ?_
    refine leads_cell hset hagrees hload ?_
    rw [mappingSlot_eq hslot]
    refine hws.imp fun w hw k'' hk'' => ?_
    have h := hw k'' (by omega)
    rwa [add_length_entry] at h

/-- The code of keys takes the address on top of the stack through the values of the keys. -/
theorem leads_keyCode (hset : Setting limits code good names)
    (hagrees : Agrees good names s₀ σ memory s) (hknown : locals.names <+: names) :
    ∀ (keys : List Term) {pc k : Nat} {stack : List Word} {address : Word}
    {xs : List Instruction}, AreNames (Term.allNames keys) →
    keyCode c.scope locals keys = .ok xs → CodeAt code pc xs →
    Either (Traps limits program code Q s)
      (fun ws => ∀ k', k ≤ k' → Leads limits program code Q
        ⟨ws.foldl Evaluation.nextAddress address :: stack, memory, pc + xs.length, k'⟩ s)
      (Evaluation.terms c locals.names σ keys) →
    Leads limits program code Q ⟨address :: stack, memory, pc, k⟩ s
  | [], pc, k, stack, address, xs, hnames, h, hcode, hnext => by
    cases h
    rw [Evaluation.terms] at hnext
    exact hnext k (Nat.le_refl k)
  | key :: keys, pc, k, stack, address, xs, hnames, h, hcode, hnext => by
    obtain ⟨first, rest, hfirst, hrest, rfl⟩ := keyCode_cons_ok h
    rw [Evaluation.terms, Evaluation.either_bind] at hnext
    rw [Term.allNames, areNames_append] at hnames
    simp only [codeAt_cons, codeAt_append] at hcode
    obtain ⟨hkey, hadd, hhash, hmore⟩ := hcode
    refine leads_term hset hagrees hknown key hnames.1 hfirst hkey ?_
    refine hnext.imp fun w hw k' hk' => ?_
    rw [Evaluation.either_bind] at hw
    refine Leads.binary hset.steps hadd ?_
    refine Leads.hash256 hset.steps hhash ?_
    refine leads_keyCode hset hagrees hknown keys hnames.2 hrest hmore ?_
    refine hw.imp fun ws hws k'' hk'' => ?_
    have h := hws k'' (by omega)
    rwa [add_length_key] at h

end

/-- The code of a tree puts its value on the stack. -/
theorem leads_tree (hset : Setting limits code good names)
    (hagrees : Agrees good names s₀ σ memory s) (hknown : locals.names <+: names)
    {g : Term → List Instruction} (t : Tree) (hnames : ∀ x ∈ t.terms, AreNames x.names)
    (hleaf : ∀ x ∈ t.terms, term c.scope locals x = .ok (g x)) (hcode : CodeAt code pc (t.code g))
    (hnext : Either (Traps limits program code Q s)
      (fun w => ∀ k', k ≤ k' →
        Leads limits program code Q ⟨w :: stack, memory, pc + (t.code g).length, k'⟩ s)
      (Evaluation.tree c locals.names σ t)) :
    Leads limits program code Q ⟨stack, memory, pc, k⟩ s := by
  induction t generalizing pc k stack with
  | leaf x =>
    exact leads_term hset hagrees hknown x (hnames x List.mem_cons_self)
      (hleaf x List.mem_cons_self) hcode hnext
  | node op l r ihl ihr =>
    simp only [Tree.terms, List.mem_append] at hnames hleaf
    simp only [Tree.code, codeAt_append, codeAt_cons] at hcode
    obtain ⟨⟨hl, hr⟩, hop, -⟩ := hcode
    rw [List.length_append, ← Nat.add_assoc] at hop
    rw [Evaluation.tree, Evaluation.either_bind] at hnext
    refine ihl (fun x hx => hnames x (Or.inl hx)) (fun x hx => hleaf x (Or.inl hx)) hl ?_
    refine hnext.imp fun a ha k' hk' => ?_
    rw [Evaluation.either_bind] at ha
    refine ihr (fun x hx => hnames x (Or.inr hx)) (fun x hx => hleaf x (Or.inr hx)) hr ?_
    refine ha.imp fun b hb k'' hk'' => ?_
    refine Leads.binary hset.steps hop ?_
    -- Only a quotient or remainder by zero has no value, and the machine faults at that operator.
    cases happly : op.apply a b with
    | some w =>
      rw [happly] at hb
      have h := hb (k'' + 1) (by omega)
      rwa [Tree.add_length_node] at h
    | none =>
      rw [happly] at hb
      exact hb _ ⟨_, rfl⟩

/-- The code of an expression puts its value on the stack. -/
theorem leads_expression (hset : Setting limits code good names)
    (hagrees : Agrees good names s₀ σ memory s) (hknown : locals.names <+: names)
    {e : Expression} (hnames : AreNames e.names) {xs : List Instruction}
    (h : expression c.scope locals e = .ok xs) (hcode : CodeAt code pc xs)
    (hnext : Either (Traps limits program code Q s)
      (fun w => ∀ k', k ≤ k' →
        Leads limits program code Q ⟨w :: stack, memory, pc + xs.length, k'⟩ s)
      (Evaluation.expression c locals.names σ e)) :
    Leads limits program code Q ⟨stack, memory, pc, k⟩ s := by
  obtain ⟨t, htree, hleaf, rfl⟩ := expression_tree h
  simp only [Evaluation.expression, htree] at hnext
  refine leads_tree hset hagrees hknown t (fun x hx => ?_) hleaf hcode hnext
  rw [terms_of_tree? htree] at hx
  exact areNames_of_mem hnames hx

/-! ### Straight statements -/

/-- A step that gives a state is followed by whatever agrees with that state. -/
def Proceeds (limits : Limits) (program : Word) (code : List Instruction) (Q : Frame → ω → Prop)
    (good : ω → Prop) (names : List String) (s₀ : ω) (stack : List Word) (pc k : Nat)
    (σ : Evaluation.State) : Prop :=
  ∀ memory s k', k ≤ k' → Agrees good names s₀ σ memory s →
    Leads limits program code Q ⟨stack, memory, pc, k'⟩ s

/-- Giving a name the value on top of the stack. -/
theorem leads_writeName (hset : Setting limits code good names)
    (hagrees : Agrees good names s₀ σ memory s) (hknown : locals.names <+: names) {name : String}
    (hname : IsName name) {xs : List Instruction} {w : Word}
    (h : writeName c.scope locals name = .ok xs) (hcode : CodeAt code pc xs)
    (hnext : Proceeds limits program code Q good names s₀ stack (pc + xs.length) k
      (Evaluation.write c locals.names σ name w)) :
    Leads limits program code Q ⟨w :: stack, memory, pc, k⟩ s := by
  unfold Evaluation.write at hnext
  rcases writeName_ok h with
    ⟨i, hlocal, rfl⟩ | ⟨hlocal, ⟨slot, hslot, rfl⟩ | ⟨hslot, key, hkey, rfl⟩⟩
  · rw [hlocal] at hnext
    simp only [pushNat, codeAt_cons] at hcode
    refine Leads.push hset.steps hcode.1 (Leads.mstore hset.steps hcode.2.1 ?_)
    exact hnext _ _ _ (by omega) (hagrees.setLocal hset.nodup hset.bound
      (getElem?_of_idxOf? hknown hlocal) w)
  · simp only [hlocal, hslot] at hnext
    simp only [pushNat, codeAt_cons] at hcode
    obtain ⟨s', hwrite, hgood, hget⟩ :=
      hset.reliable.writeCell hagrees.good program (.ofNat slot) w
    refine Leads.push hset.steps hcode.1 (Leads.sstore hset.steps hcode.2.1 hwrite ?_)
    exact hnext _ _ _ (by omega) (hagrees.setCell hgood hget)
  · simp only [hlocal, hslot] at hnext
    simp only [codeAt_cons] at hcode
    refine Leads.push hset.steps hcode.1 (Leads.mstore hset.steps hcode.2.1 ?_)
    exact hnext _ _ _ (by omega) (hagrees.setParameter hset.bound hname hkey w)

/-- Storing the value on top of the stack in the target of an assignment. -/
theorem leads_store (hset : Setting limits code good names)
    (hagrees : Agrees good names s₀ σ memory s) (hknown : locals.names <+: names)
    {target : Expression} {x : Term} (hnames : AreNames x.names) {xs : List Instruction} {w : Word}
    (h : store c.scope locals target x = .ok xs) (hcode : CodeAt code pc xs)
    (hnext : Either (Traps limits program code Q s)
      (Proceeds limits program code Q good names s₀ stack (pc + xs.length) k)
      (Evaluation.store c locals.names σ x w)) :
    Leads limits program code Q ⟨w :: stack, memory, pc, k⟩ s := by
  cases x with
  | literal value => cases h
  | ident name =>
    rw [store] at h
    rw [Term.names, areNames_cons] at hnames
    exact leads_writeName hset hagrees hknown hnames.1 h hcode hnext
  | index base keys =>
    obtain ⟨place, hplace, rfl⟩ := store_index_ok h
    obtain ⟨slot, rest, hslot, hrest, rfl⟩ := address_ok hplace
    rw [Term.names, areNames_cons] at hnames
    rw [Evaluation.store, Evaluation.either_bind] at hnext
    simp only [List.cons_append, codeAt_cons, codeAt_append, pushNat] at hcode
    obtain ⟨hpush, hkeys, hstore, -⟩ := hcode
    refine Leads.push hset.steps hpush ?_
    refine leads_keyCode hset hagrees hknown keys hnames.2 hrest hkeys ?_
    refine hnext.imp fun ws hws k' hk' => ?_
    obtain ⟨s', hwrite, hgood, hget⟩ := hset.reliable.writeCell hagrees.good program
      (ws.foldl Evaluation.nextAddress (.ofNat slot)) w
    refine Leads.sstore hset.steps hstore hwrite ?_
    rw [mappingSlot_eq hslot] at hget
    have h := hws _ _ (k' + 1) (by omega) (hagrees.setCell hgood hget)
    rwa [add_length_entry] at h

/-- An assignment. -/
theorem leads_assignment (hset : Setting limits code good names)
    (hagrees : Agrees good names s₀ σ memory s) (hknown : locals.names <+: names)
    {a : Assignment} (hnames : AreNames a.names) {xs : List Instruction}
    (h : assignment c.scope locals a = .ok xs) (hcode : CodeAt code pc xs)
    (hnext : Either (Traps limits program code Q s)
      (Proceeds limits program code Q good names s₀ stack (pc + xs.length) k)
      (Evaluation.assignment c locals.names σ a)) :
    Leads limits program code Q ⟨stack, memory, pc, k⟩ s := by
  obtain ⟨target, value, rest, htarget, hvalue, hstore, rfl⟩ := assignment_ok h
  rw [Assignment.names, areNames_append] at hnames
  obtain ⟨hvalueAt, hstoreAt⟩ := codeAt_append.1 hcode
  rw [Evaluation.assignment, Evaluation.either_bind] at hnext
  refine leads_expression hset hagrees hknown hnames.2 hvalue hvalueAt ?_
  refine hnext.imp fun w hw k' hk' => ?_
  rw [htarget] at hw
  refine leads_store hset hagrees hknown (areNames_of_mem hnames.1 (mem_of_singleTerm? htarget))
    hstore hstoreAt (hw.imp fun σ' hσ' memory' s' k'' hk'' hagrees' => ?_)
  have h := hσ' memory' s' k'' (by omega) hagrees'
  rwa [List.length_append, ← Nat.add_assoc] at h

/-- The declaration of a local. -/
theorem leads_localVariable (hset : Setting limits code good names)
    (hagrees : Agrees good names s₀ σ memory s) {v : LocalVariable} (hnames : AreNames v.names)
    {xs : List Instruction} (h : localVariable c.scope locals v = .ok (xs, after))
    (hafter : after.names <+: names) (hcode : CodeAt code pc xs)
    (hnext : Either (Traps limits program code Q s)
      (Proceeds limits program code Q good names s₀ stack (pc + xs.length) k)
      (Evaluation.localVariable c locals.names σ v)) :
    Leads limits program code Q ⟨stack, memory, pc, k⟩ s := by
  have hknown : locals.names <+: names := by
    rw [after_localVariable h] at hafter
    exact (Evaluation.extends_declare _ _).1.trans hafter
  obtain ⟨value, hvalue, rfl, rfl⟩ := localVariable_ok h
  rw [LocalVariable.names, areNames_cons] at hnames
  simp only [pushNat, codeAt_append, codeAt_cons] at hcode
  obtain ⟨hvalueAt, hpush, hstore, -⟩ := hcode
  rw [Evaluation.localVariable, Evaluation.either_bind] at hnext
  refine leads_expression hset hagrees hknown hnames.2 hvalue hvalueAt ?_
  refine hnext.imp fun w hw k' hk' => ?_
  refine Leads.push hset.steps hpush (Leads.mstore hset.steps hstore ?_)
  -- The value was evaluated without the new local; its number is the one it has from now on.
  have hlocal := getElem?_of_idxOf? hafter (Numbering.lookup?_number locals v.name)
  have h := hw _ _ (k' + 1 + 1) (by omega) (hagrees.setLocal hset.nodup hset.bound hlocal w)
  rwa [List.length_append, ← Nat.add_assoc] at h

/-! ### Flows -/

/-- What follows a flow: the code behind, the end of the body with the value returned, a fault, or
more turns than there was fuel. -/
def Continues (limits : Limits) (program : Word) (code : List Instruction) (Q : Frame → ω → Prop)
    (good : ω → Prop) (names : List String) (s₀ : ω) (fuel pc k : Nat) :
    Option Evaluation.Flow → Prop
  | some (.next σ) => Proceeds limits program code Q good names s₀ [] pc k σ
  | some (.returned w σ) => Proceeds limits program code Q good names s₀ [w] code.length k σ
  | some (.stopped t σ) =>
    ∀ memory s, Agrees good names s₀ σ memory s → Traps limits program code Q s t
  | none => ∀ f s, k + fuel < f.steps → Q f s

theorem Continues.later {fuel k' : Nat} {r : Option Evaluation.Flow} (hk : k ≤ k')
    (h : Continues limits program code Q good names s₀ fuel pc k r) :
    Continues limits program code Q good names s₀ fuel pc k' r := by
  match r, h with
  | some (.next σ), h => exact fun memory s k'' hk'' => h memory s k'' (by omega)
  | some (.returned w σ), h => exact fun memory s k'' hk'' => h memory s k'' (by omega)
  | some (.stopped t σ), h => exact h
  | none, h => exact fun f s hlt => h f s (by omega)

/-- Where a flow does not go on to what follows, it does not matter where that is. -/
theorem Continues.elsewhere {fuel pc' : Nat} {r : Option Evaluation.Flow}
    (hr : ∀ σ, r ≠ some (.next σ))
    (h : Continues limits program code Q good names s₀ fuel pc k r) :
    Continues limits program code Q good names s₀ fuel pc' k r := by
  match r, hr, h with
  | some (.next σ), hr, _ => exact absurd rfl (hr σ)
  | some (.returned w σ), _, h => exact h
  | some (.stopped t σ), _, h => exact h
  | none, _, h => exact h

/-- What follows the first of two flows is the second, and then what follows both. -/
theorem Continues.first {fuel pc' : Nat} {r : Option Evaluation.Flow}
    {then_ : Evaluation.State → Option Evaluation.Flow}
    (h : Continues limits program code Q good names s₀ fuel pc' k
      (match r with
        | some (.next σ) => then_ σ
        | other => other))
    (hnext : ∀ σ memory s k', Agrees good names s₀ σ memory s →
      Continues limits program code Q good names s₀ fuel pc' k' (then_ σ) →
      Leads limits program code Q ⟨[], memory, pc, k'⟩ s) :
    Continues limits program code Q good names s₀ fuel pc k r := by
  match r, h with
  | some (.next σ), h =>
    exact fun memory s k' hk' hagrees => hnext σ memory s k' hagrees (h.later hk')
  | some (.returned w σ), h => exact h
  | some (.stopped t σ), h => exact h
  | none, h => exact h

/-- What follows a step that may trap. -/
theorem Continues.ofResult {fuel : Nat} {x : Except Evaluation.Trap Evaluation.State}
    (hagrees : Agrees good names s₀ σ memory s)
    (h : Continues limits program code Q good names s₀ fuel pc k (some (.ofResult σ x))) :
    Either (Traps limits program code Q s)
      (Proceeds limits program code Q good names s₀ [] pc k) x := by
  cases x with
  | ok σ' => exact h
  | error t => exact h memory s hagrees

/-- A test under a target: behind the test if it holds, else at the target. -/
theorem leads_test (hset : Setting limits code good names)
    (hagrees : Agrees good names s₀ σ memory s) (hknown : locals.names <+: names)
    {condition : Expression} (hnames : AreNames condition.names) {target : Nat}
    {test : List Instruction} (htarget : target ≤ code.length)
    (h : expression c.scope locals condition = .ok test)
    (hcode : CodeAt code pc (pushNat target :: test ++ [.jumpi]))
    (hnext : Either (Traps limits program code Q s)
      (fun w => ∀ k', k < k' →
        Leads limits program code Q
          ⟨[], memory, if w.isTrue then pc + test.length + 2 else target, k'⟩ s)
      (Evaluation.expression c locals.names σ condition)) :
    Leads limits program code Q ⟨[], memory, pc, k⟩ s := by
  simp only [pushNat, List.cons_append, codeAt_cons, codeAt_append] at hcode
  obtain ⟨hpush, htest, hjumpi, -⟩ := hcode
  refine Leads.push hset.steps hpush ?_
  refine leads_expression hset hagrees hknown hnames h htest (hnext.imp fun w hw k' hk' => ?_)
  refine Leads.jumpi hset.steps hjumpi htarget hset.size ?_
  have h := hw (k' + 1) (by omega)
  cases htrue : w.isTrue with
  | true =>
    rw [htrue] at h
    rw [show pc + 1 + test.length + 1 = pc + test.length + 2 by omega]
    exact h
  | false =>
    rw [htrue] at h
    exact h

/-- A jump at the end of a piece of code. -/
theorem leads_goto (hset : Setting limits code good names) {target : Nat}
    (htarget : target ≤ code.length) (hcode : CodeAt code pc [pushNat target, .jump])
    (hnext : Leads limits program code Q ⟨stack, memory, target, k + 1 + 1⟩ s) :
    Leads limits program code Q ⟨stack, memory, pc, k⟩ s := by
  simp only [pushNat, codeAt_cons] at hcode
  exact Leads.push hset.steps hcode.1 (Leads.jump hset.steps hcode.2.1 htarget hset.size hnext)

/-- A loop from its head on, with `n` rounds of its fuel left. The rounds before took a turn each. -/
theorem leads_iterate (hset : Setting limits code good names) {condition : Expression}
    {step : Assignment} {body : List Statement} {inner : Numbering} {fuel head exit k₀ : Nat}
    {test stepCode : List Instruction} {bodyCode : List Symbol}
    (hinner : inner.names <+: names) (hafter : after.names <+: names)
    (hconditionNames : AreNames condition.names) (hstepNames : AreNames step.names)
    (htest : expression c.scope inner condition = .ok test)
    (hstep : assignment c.scope after step = .ok stepCode)
    (hexit : exit ≤ code.length) (hhead : head ≤ code.length)
    (htestAt : CodeAt code head (pushNat exit :: test ++ [.jumpi]))
    (hstepAt : CodeAt code (head + test.length + 2 + bodyCode.length) stepCode)
    (hjump : CodeAt code (head + test.length + 2 + bodyCode.length + stepCode.length)
      [pushNat head, .jump])
    (hbody : ∀ {σ : Evaluation.State} {memory : Memory} {s : ω} {k : Nat},
      Agrees good names s₀ σ memory s →
      Continues limits program code Q good names s₀ fuel
        (head + test.length + 2 + bodyCode.length) k
        (Evaluation.block c fuel inner.names body σ) →
      Leads limits program code Q ⟨[], memory, head + test.length + 2, k⟩ s) (n : Nat) :
    ∀ {σ : Evaluation.State} {memory : Memory} {s : ω} {k : Nat}, k₀ ≤ k → k₀ + fuel ≤ k + n →
    Agrees good names s₀ σ memory s →
    Continues limits program code Q good names s₀ fuel exit k₀
      (Evaluation.iterate (fun σ => Evaluation.expression c inner.names σ condition)
        (fun σ => Evaluation.block c fuel inner.names body σ)
        (fun σ => Evaluation.assignment c after.names σ step) n σ) →
    Leads limits program code Q ⟨[], memory, head, k⟩ s := by
  induction n with
  | zero =>
    intro σ memory s k hk hturns hagrees hnext
    -- The fuel is used up, and so are as many turns; the next one is the push of the exit.
    simp only [pushNat, List.cons_append, codeAt_cons] at htestAt
    exact Leads.push hset.steps htestAt.1 (Leads.here (hnext _ _ (by show k₀ + fuel < k + 1; omega)))
  | succ n ih =>
    intro σ memory s k hk hturns hagrees hnext
    rw [Evaluation.iterate] at hnext
    refine leads_test hset hagrees hinner hconditionNames hexit htest htestAt ?_
    cases hcondition : Evaluation.expression c inner.names σ condition with
    | error t =>
      simp only [hcondition] at hnext
      exact hnext memory s hagrees
    | ok w =>
      simp only [hcondition] at hnext
      intro k' hk'
      cases htrue : w.isTrue with
      | false =>
        rw [htrue] at hnext
        exact hnext memory s k' (by omega) hagrees
      | true =>
        rw [htrue] at hnext
        simp only [if_true] at hnext ⊢
        -- Only a body that goes on comes to the step; any other flow leaves the loop.
        refine hbody hagrees ?_
        cases hflow : Evaluation.block c fuel inner.names body σ with
        | none =>
          simp only [hflow] at hnext
          exact (hnext.later (by omega)).elsewhere nofun
        | some flow =>
          cases flow with
          | next σ' =>
            simp only [hflow] at hnext
            intro memory' s' k'' hk'' hagrees'
            refine leads_assignment hset hagrees' hafter hstepNames hstep hstepAt ?_
            cases hassign : Evaluation.assignment c after.names σ' step with
            | error t =>
              simp only [hassign] at hnext
              exact hnext memory' s' hagrees'
            | ok σ'' =>
              simp only [hassign] at hnext
              intro memory'' s'' k''' hk''' hagrees''
              exact leads_goto hset hhead hjump (ih (by omega) (by omega) hagrees'' hnext)
          | returned w' σ' =>
            simp only [hflow] at hnext
            exact (hnext.later (by omega)).elsewhere nofun
          | stopped t σ' =>
            simp only [hflow] at hnext
            exact (hnext.later (by omega)).elsewhere nofun

/-- What follows the first arm of a branch is what follows the branch. -/
theorem continues_thenArm (hset : Setting limits code good names) {fuel : Nat}
    (elseBody : Option (List Statement)) {symbols : List Symbol} {skip : List Instruction}
    {r : Option Evaluation.Flow}
    (h : elseArm c.scope position locals elseBody = .ok (symbols, skip, after))
    (hskip : CodeAt code position skip)
    (hle : position + skip.length + symbols.length ≤ code.length)
    (hnext : Continues limits program code Q good names s₀ fuel
      (position + skip.length + symbols.length) k r) :
    Continues limits program code Q good names s₀ fuel position k r := by
  cases elseBody with
  | none =>
    obtain ⟨rfl, rfl, -⟩ := elseArm_none_ok h
    exact hnext
  | some body =>
    obtain ⟨-, rfl⟩ := elseArm_some_ok h
    by_cases hr : ∃ σ, r = some (.next σ)
    · obtain ⟨σ, rfl⟩ := hr
      exact fun memory s k' hk' hagrees =>
        leads_goto hset hle hskip (hnext memory s _ (by omega) hagrees)
    · exact hnext.elsewhere fun σ hσ => hr ⟨σ, hσ⟩

/-- The value of a `return`, left on the stack. -/
theorem leads_returns (hset : Setting limits code good names) (fuel pc' : Nat)
    (hagrees : Agrees good names s₀ σ memory s) (hknown : locals.names <+: names)
    {value : Expression} (hnames : AreNames value.names) {xs : List Instruction}
    (h : expression c.scope locals value = .ok xs) (hcode : CodeAt code pc xs)
    (hend : ∀ w k', k ≤ k' →
      (∀ k'', k' ≤ k'' → Leads limits program code Q ⟨[w], memory, code.length, k''⟩ s) →
      Leads limits program code Q ⟨[w], memory, pc + xs.length, k'⟩ s)
    (hnext : Continues limits program code Q good names s₀ fuel pc' k
      (Evaluation.statement c fuel locals.names (.returns value) σ)) :
    Leads limits program code Q ⟨[], memory, pc, k⟩ s := by
  rw [Evaluation.statement] at hnext
  refine leads_expression hset hagrees hknown hnames h hcode ?_
  cases hvalue : Evaluation.expression c locals.names σ value with
  | error t =>
    rw [hvalue] at hnext
    exact hnext memory s hagrees
  | ok w =>
    rw [hvalue] at hnext
    exact fun k' hk' => hend w k' hk' fun k'' hk'' => hnext memory s k'' (by omega) hagrees

mutual

/-- The code of a statement leads where the flow of the statement leads. -/
theorem leads_statement (hset : Setting limits code good names) (fuel : Nat) :
    ∀ (st : Statement) {σ : Evaluation.State} {memory : Memory} {s : ω} {k position : Nat}
    {locals after : Numbering} {symbols : List Symbol}, Agrees good names s₀ σ memory s →
    AreNames st.names → statement c.scope position locals st = .ok (symbols, after) →
    after.names <+: names → Placed code position symbols →
    Continues limits program code Q good names s₀ fuel (position + symbols.length) k
      (Evaluation.statement c fuel locals.names st σ) →
    Leads limits program code Q ⟨[], memory, position, k⟩ s
  | .returns value, σ, memory, s, k, position, locals, after, symbols, hagrees, hnames, h, hafter,
      hplaced, hnext => by
    obtain ⟨_, -, -, rfl⟩ := statement_returns_ok h
    obtain ⟨xs, hvalue, hcode, hjump⟩ := returns_placed h hplaced
    exact leads_returns hset fuel _ hagrees hafter hnames hvalue hcode
      (fun w k' _ hrest => leads_goto hset (Nat.le_refl _) hjump (hrest _ (by omega))) hnext
  | .assign a, σ, memory, s, k, position, locals, after, symbols, hagrees, hnames, h, hafter,
      hplaced, hnext => by
    obtain ⟨xs, hassign, rfl, rfl⟩ := statement_assign_ok h
    rw [placed_plain] at hplaced
    rw [length_plain, Evaluation.statement] at hnext
    exact leads_assignment hset hagrees hafter hnames hassign hplaced (hnext.ofResult hagrees)
  | .declare v, σ, memory, s, k, position, locals, after, symbols, hagrees, hnames, h, hafter,
      hplaced, hnext => by
    obtain ⟨xs, hdeclare, rfl⟩ := statement_declare_ok h
    rw [placed_plain] at hplaced
    rw [length_plain, Evaluation.statement] at hnext
    exact leads_localVariable hset hagrees hnames hdeclare hafter hplaced (hnext.ofResult hagrees)
  | .branch condition thenBody elseBody, σ, memory, s, k, position, locals, after, symbols, hagrees,
      hnames, h, hafter, hplaced, hnext => by
    obtain ⟨test, thenCode, middle, elseCode, skip, thenStart, elseStart, rfl, rfl, hlen, hle, htest,
      hthen, helse, htestAt, hthenAt, hskip, helseAt⟩ := branch_placed h hplaced
    rw [Statement.names, areNames_append, areNames_append] at hnames
    obtain ⟨⟨hconditionNames, hthenNames⟩, helseNames⟩ := hnames
    -- The second arm is compiled with the locals of the first, also when the first is not taken.
    have hmiddle : middle.names <+: names := by
      rw [after_elseArm elseBody helse] at hafter
      exact (Evaluation.extends_declaredByArm elseBody _).1.trans hafter
    have hlocals : locals.names <+: names := by
      rw [after_block thenBody hthen] at hmiddle
      exact (Evaluation.extends_declared thenBody _).1.trans hmiddle
    rw [hlen, Evaluation.statement] at hnext
    rw [hlen] at hle
    refine leads_test hset hagrees hlocals hconditionNames (by omega) htest htestAt ?_
    cases hcondition : Evaluation.expression c locals.names σ condition with
    | error t =>
      simp only [hcondition] at hnext
      exact hnext memory s hagrees
    | ok w =>
      simp only [hcondition] at hnext
      intro k' hk'
      cases htrue : w.isTrue with
      | true =>
        rw [htrue] at hnext
        refine leads_block hset fuel thenBody hagrees hthenNames hthen hmiddle hthenAt ?_
        exact continues_thenArm hset elseBody helse hskip hle (hnext.later (by omega))
      | false =>
        rw [htrue] at hnext
        simp only [Bool.false_eq_true, if_false] at hnext ⊢
        rw [← after_block thenBody hthen] at hnext
        exact leads_elseArm hset fuel elseBody hagrees helseNames helse hafter helseAt
          (hnext.later (by omega))
  | .loop start condition step body, σ, memory, s, k, position, locals, after, symbols, hagrees,
      hnames, h, hafter, hplaced, hnext => by
    obtain ⟨startCode, inner, test, bodyCode, stepCode, head, bodyStart, rfl, rfl, hlen, hle, hstart,
      htest, hbody, hstep, hstartAt, htestAt, hbodyAt, hstepAt, hjump⟩ := loop_placed h hplaced
    rw [Statement.names, areNames_append, areNames_append, areNames_append] at hnames
    obtain ⟨⟨⟨hstartNames, hconditionNames⟩, hstepNames⟩, hbodyNames⟩ := hnames
    -- The test knows the locals up to the loop's own, the step those of the body as well.
    have hinner : inner.names <+: names := by
      rw [after_block body hbody] at hafter
      exact (Evaluation.extends_declared body _).1.trans hafter
    rw [Evaluation.statement] at hnext
    refine leads_localVariable hset hagrees hstartNames hstart hinner hstartAt ?_
    cases hvalue : Evaluation.localVariable c locals.names σ start with
    | error t =>
      simp only [hvalue] at hnext
      exact hnext memory s hagrees
    | ok σ' =>
      simp only [hvalue, ← after_localVariable hstart, ← after_block body hbody] at hnext
      intro memory' s' k' hk' hagrees'
      exact leads_iterate hset hinner hafter hconditionNames hstepNames htest hstep hle (by omega)
        htestAt hstepAt hjump
        (fun hagrees hnext => leads_block hset fuel body hagrees hbodyNames hbody hafter hbodyAt hnext)
        fuel hk' (by omega) hagrees' hnext

/-- The code of a block leads where the flow of the block leads. -/
theorem leads_block (hset : Setting limits code good names) (fuel : Nat) :
    ∀ (statements : List Statement) {σ : Evaluation.State} {memory : Memory} {s : ω}
    {k position : Nat} {locals after : Numbering} {symbols : List Symbol},
    Agrees good names s₀ σ memory s → AreNames (Statement.allNames statements) →
    block c.scope position locals statements = .ok (symbols, after) → after.names <+: names →
    Placed code position symbols →
    Continues limits program code Q good names s₀ fuel (position + symbols.length) k
      (Evaluation.block c fuel locals.names statements σ) →
    Leads limits program code Q ⟨[], memory, position, k⟩ s
  | [], σ, memory, s, k, position, locals, after, symbols, hagrees, hnames, h, hafter, hplaced,
      hnext => by
    obtain ⟨rfl, -⟩ := block_nil_ok h
    rw [Evaluation.block] at hnext
    exact hnext memory s k (Nat.le_refl k) hagrees
  | first :: rest, σ, memory, s, k, position, locals, after, symbols, hagrees, hnames, h, hafter,
      hplaced, hnext => by
    obtain ⟨firstCode, middle, restCode, hfirst, hrest, rfl⟩ := block_cons_ok h
    obtain ⟨hfirstAt, hrestAt⟩ := placed_append.1 hplaced
    rw [Statement.allNames, areNames_append] at hnames
    have hmiddle : middle.names <+: names := by
      rw [after_block rest hrest] at hafter
      exact (Evaluation.extends_declared rest _).1.trans hafter
    rw [Evaluation.block] at hnext
    refine leads_statement hset fuel first hagrees hnames.1 hfirst hmiddle hfirstAt
      (hnext.first fun σ' memory' s' k' hagrees' hrestNext => ?_)
    rw [← after_statement first hfirst, List.length_append, ← Nat.add_assoc] at hrestNext
    exact leads_block hset fuel rest hagrees' hnames.2 hrest hafter hrestAt hrestNext

/-- The code of the second arm of a branch leads where the flow of the arm leads. -/
theorem leads_elseArm (hset : Setting limits code good names) (fuel : Nat) :
    ∀ (elseBody : Option (List Statement)) {σ : Evaluation.State} {memory : Memory} {s : ω}
    {k position : Nat} {locals after : Numbering} {symbols : List Symbol}
    {skip : List Instruction}, Agrees good names s₀ σ memory s →
    AreNames (Statement.armNames elseBody) →
    elseArm c.scope position locals elseBody = .ok (symbols, skip, after) →
    after.names <+: names → Placed code (position + skip.length) symbols →
    Continues limits program code Q good names s₀ fuel (position + skip.length + symbols.length) k
      (Evaluation.arm c fuel locals.names elseBody σ) →
    Leads limits program code Q ⟨[], memory, position + skip.length, k⟩ s
  | none, σ, memory, s, k, position, locals, after, symbols, skip, hagrees, hnames, h, hafter,
      hplaced, hnext => by
    obtain ⟨rfl, rfl, -⟩ := elseArm_none_ok h
    rw [Evaluation.arm] at hnext
    exact hnext memory s k (Nat.le_refl k) hagrees
  | some body, σ, memory, s, k, position, locals, after, symbols, skip, hagrees, hnames, h, hafter,
      hplaced, hnext => by
    obtain ⟨hblock, rfl⟩ := elseArm_some_ok h
    rw [Statement.armNames] at hnames
    rw [Evaluation.arm] at hnext
    exact leads_block hset fuel body hagrees hnames hblock hafter hplaced hnext

end

/-- The code of a body leads where the flow of the body leads. -/
theorem leads_bodyFrom (hset : Setting limits code good names) (fuel : Nat)
    {statements : List Statement} {symbols : List Symbol}
    (hagrees : Agrees good names s₀ σ memory s)
    (hnames : AreNames (Statement.allNames statements))
    (h : bodyFrom c.scope position locals statements = .ok symbols)
    (hdeclared : Evaluation.declared locals.names statements <+: names)
    (hplaced : Placed code position symbols) (hlen : position + symbols.length = code.length)
    (hnext : Continues limits program code Q good names s₀ fuel code.length k
      (Evaluation.block c fuel locals.names statements σ)) :
    Leads limits program code Q ⟨[], memory, position, k⟩ s := by
  induction statements generalizing σ memory s k position locals symbols with
  | nil =>
    cases h
    rw [Evaluation.block] at hnext
    rw [show position = code.length from hlen]
    exact hnext memory s k (Nat.le_refl k) hagrees
  | cons first rest ih =>
    rw [Statement.allNames, areNames_append] at hnames
    rw [Evaluation.declared] at hdeclared
    rw [Evaluation.block] at hnext
    -- A `return` that comes last runs off the end of the body and needs no jump.
    by_cases hlast : ∃ value, first = .returns value ∧ rest = []
    · obtain ⟨value, rfl, rfl⟩ := hlast
      obtain ⟨xs, hvalue, rfl⟩ := bodyFrom_last_ok h
      rw [placed_plain] at hplaced
      rw [length_plain] at hlen
      rw [Evaluation.declared, Evaluation.declaredBy] at hdeclared
      refine leads_returns hset fuel code.length hagrees hdeclared hnames.1 hvalue hplaced
        (fun w k' _ hrest => hlen ▸ hrest k' (Nat.le_refl k')) ?_
      refine hnext.first fun σ' memory' s' k' hagrees' hrestNext => ?_
      exact hrestNext memory' s' k' (Nat.le_refl k') hagrees'
    · obtain ⟨firstCode, middle, restCode, hfirst, hrest, rfl⟩ :=
        bodyFrom_cons_ok (fun value hv => hlast ⟨value, hv⟩) h
      obtain ⟨hfirstAt, hrestAt⟩ := placed_append.1 hplaced
      rw [List.length_append, ← Nat.add_assoc] at hlen
      rw [← after_statement first hfirst] at hdeclared hnext
      have hmiddle := (Evaluation.extends_declared rest middle.names).1.trans hdeclared
      exact leads_statement hset fuel first hagrees hnames.1 hfirst hmiddle hfirstAt
        (hnext.first fun σ' memory' s' k' hagrees' hrestNext =>
          ih hagrees' hnames.2 hrest hdeclared hrestAt hlen hrestNext)

end Simulation

end Compile

end Covenant
