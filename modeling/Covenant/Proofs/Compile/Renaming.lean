import Covenant.Proofs.Compile.Acceptance
import Mathlib.Data.List.Forall2
import Mathlib.Data.List.Nodup
import Mathlib.Logic.Equiv.Basic

/-!
# Renaming

Names are how a contract speaks about its slots. Code has the slots, so a change of names leaves no
trace in it, with two exceptions: parameters are kept in memory under their names, and so is what a
name means that is neither a local nor a storage declaration.

* `Statement.rename` and its companions apply a map to all names of a tree, `Contract.Renamed` says
  that two contracts differ by a map on names, the name of the contract and the names of types.
* `Site.Kept` says of some sites that the map keeps the names that code can show.
* `Scope.resolve_rename` says that a name means after renaming what it meant before.
* For every construct of the language there is one lemma: if it compiles, it compiles to the same
  code after renaming. `program_is_independent_of_names` says it of contracts.
-/

namespace Covenant

/-! ### Renaming a tree -/

mutual

/-- An operand with the map applied to all its names. -/
def Term.rename (ρ : String → String) : Term → Term
  | .literal value => .literal value
  | .ident name => .ident (ρ name)
  | .index base keys => .index (ρ base) (Term.renameAll ρ keys)

def Term.renameAll (ρ : String → String) : List Term → List Term
  | [] => []
  | first :: rest => first.rename ρ :: Term.renameAll ρ rest

end

def Expression.rename (ρ : String → String) (e : Expression) : Expression :=
  ⟨Term.renameAll ρ e.terms, e.operators⟩

def Assignment.rename (ρ : String → String) (a : Assignment) : Assignment :=
  ⟨a.target.rename ρ, a.value.rename ρ⟩

def LocalVariable.rename (ρ : String → String) (v : LocalVariable) : LocalVariable :=
  ⟨ρ v.name, v.value.rename ρ⟩

mutual

/-- A statement with the map applied to all its names, those it declares too. -/
def Statement.rename (ρ : String → String) : Statement → Statement
  | .returns value => .returns (value.rename ρ)
  | .assign a => .assign (a.rename ρ)
  | .declare v => .declare (v.rename ρ)
  | .branch condition thenBody elseBody =>
    .branch (condition.rename ρ) (Statement.renameAll ρ thenBody) (Statement.renameArm ρ elseBody)
  | .loop start condition step body =>
    .loop (start.rename ρ) (condition.rename ρ) (step.rename ρ) (Statement.renameAll ρ body)

def Statement.renameAll (ρ : String → String) : List Statement → List Statement
  | [] => []
  | first :: rest => first.rename ρ :: Statement.renameAll ρ rest

def Statement.renameArm (ρ : String → String) :
    Option (List Statement) → Option (List Statement)
  | none => none
  | some body => some (Statement.renameAll ρ body)

end

/-- Two functions differ by a map on names and by the names of types. -/
structure FunctionDeclaration.Renamed (ρ : String → String) (f f' : FunctionDeclaration) : Prop where
  name : f'.name = ρ f.name
  parameters : f'.parameters.map Parameter.name = f.parameters.map fun p => ρ p.name
  body : f'.body = Statement.renameAll ρ f.body

/-- Two declarations differ by a map on names and by the names of types. -/
inductive Declaration.Renamed (ρ : String → String) : Declaration → Declaration → Prop
  | variable_ (name type type' : String) (value : Literal) :
    Renamed ρ (.variable_ ⟨name, type, value⟩) (.variable_ ⟨ρ name, type', value⟩)
  | mapping (name : String) {keyTypes keyTypes' : List String} (valueType valueType' : String)
      (h : keyTypes'.length = keyTypes.length) :
    Renamed ρ (.mapping ⟨name, keyTypes, valueType⟩) (.mapping ⟨ρ name, keyTypes', valueType'⟩)
  | function {f f' : FunctionDeclaration} (h : f.Renamed ρ f') :
    Renamed ρ (.function f) (.function f')

/-- Two contracts differ by a map on names, by their own names and by the names of types. -/
def Contract.Renamed (ρ : String → String) (c c' : Contract) : Prop :=
  List.Forall₂ (Declaration.Renamed ρ) c.declarations c'.declarations

/-- A name that somewhere in a function means neither a local nor a storage declaration. -/
def FunctionDeclaration.UsesFree (c : Contract) (f : FunctionDeclaration) (name : String) : Prop :=
  (∃ before after, f.sites = before ++ .uses name :: after ∧ .declares name ∉ before)
    ∧ ¬ c.DeclaresVariable name ∧ ∀ keys, ¬ c.DeclaresMapping name keys

/-! ### Slots and scopes -/

variable {ρ : String → String}

def Numbering.rename (ρ : String → String) (n : Numbering) : Numbering := ⟨n.names.map ρ⟩

def Scope.rename (ρ : String → String) (s : Scope) : Scope :=
  ⟨s.cells.map (Prod.map ρ id), s.storage.rename ρ⟩

section Meaning

variable (hρ : Function.Injective ρ)

include hρ

theorem beq_rename (a b : String) : (ρ a == ρ b) = (a == b) := by
  rw [Bool.eq_iff_iff, beq_iff_eq, beq_iff_eq, hρ.eq_iff]

/-- A name that is looked up after renaming is found where it was. -/
theorem Numbering.lookup?_rename (n : Numbering) (name : String) :
    (n.rename ρ).lookup? (ρ name) = n.lookup? name := by
  show (n.names.map ρ).findIdx? (· == ρ name) = n.names.findIdx? (· == name)
  -- Both search for the first place where names are equal, and an injective map keeps equality.
  rw [List.findIdx?_map]
  congr 1
  funext other
  exact beq_rename hρ other name

/-- A name takes the number after renaming that it took before. -/
theorem Numbering.number_rename (n : Numbering) (name : String) :
    (n.rename ρ).number (ρ name) = ((n.number name).1, (n.number name).2.rename ρ) := by
  unfold Numbering.number
  rw [lookup?_rename hρ]
  cases n.lookup? name with
  | some i => rfl
  | none => simp [rename]

theorem Scope.cell?_rename (s : Scope) (name : String) :
    (s.rename ρ).cell? (ρ name) = s.cell? name := by
  unfold cell? rename
  induction s.cells with
  | nil => rfl
  | cons pair rest ih =>
    rw [List.map_cons, List.lookup_cons, List.lookup_cons, Prod.map_fst, Prod.map_snd,
      beq_rename hρ, ih]
    rfl

/-- A declaration keeps its slot. -/
theorem Scope.slot_rename (s : Scope) (name : String) :
    (s.rename ρ).slot (ρ name) = s.slot name := by
  show ((s.storage.rename ρ).number (ρ name)).1 = (s.storage.number name).1
  rw [Numbering.number_rename hρ]

/-- A name means after renaming what it meant before. -/
theorem Scope.resolve_rename (s : Scope) (locals : Numbering) (name : String) :
    (s.rename ρ).resolve (locals.rename ρ) (ρ name) = s.resolve locals name := by
  unfold resolve
  rw [Numbering.lookup?_rename hρ, cell?_rename hρ, slot_rename hρ]

end Meaning

/-- A name that means a parameter is no local and not in the storage. -/
theorem Scope.resolve_eq_parameter {s : Scope} {locals : Numbering} {name : String}
    (h : s.resolve locals name = .parameter) : name ∉ locals.names ∧ s.cell? name = none := by
  unfold resolve at h
  cases hlocal : locals.lookup? name with
  | some slot => rw [hlocal] at h; cases h
  | none =>
    rw [hlocal] at h
    cases hcell : s.cell? name with
    | none => exact ⟨List.idxOf?_eq_none_iff.1 hlocal, rfl⟩
    | some cell =>
      rw [hcell] at h
      cases cell <;> cases h

/-! ### Names that code can show -/

namespace Site

/-- The map keeps those names among some sites that mean neither a local nor a storage
declaration. -/
def Kept (ρ : String → String) (scope : Scope) (locals : List String) (sites : List Site) : Prop :=
  ∀ before name after, sites = before ++ .uses name :: after →
    name ∉ declareAll locals before → scope.cell? name = none → ρ name = name

variable {scope : Scope} {locals : List String} {first second : List Site}

/-- What is kept of all sites is kept of the first ones. -/
theorem Kept.left (h : Kept ρ scope locals (first ++ second)) : Kept ρ scope locals first := by
  intro before name after hsites
  refine h before name (after ++ second) ?_
  rw [hsites, List.append_assoc, List.cons_append]

/-- What is kept of all sites is kept of the last ones, where the first ones have declared locals.
-/
theorem Kept.right (h : Kept ρ scope locals (first ++ second)) :
    Kept ρ scope (declareAll locals first) second := by
  intro before name after hsites hlocal
  -- A site of the second part is a site of the whole, behind all of the first.
  refine h (first ++ before) name after ?_ ?_
  · rw [hsites, List.append_assoc]
  · rwa [declareAll, List.foldl_append]

theorem Kept.tail {site : Site} (h : Kept ρ scope locals (site :: second)) :
    Kept ρ scope (site.declare locals) second := by
  have hsplit : Kept ρ scope locals ([site] ++ second) := h
  exact hsplit.right

/-- What is kept behind sites that were compiled. -/
theorem Kept.behind {α : Type} {c : Contract} {mid : α → List String} {x : Except CompileError α}
    {a : α} (h : Kept ρ c.scope locals (first ++ second)) (hx : Compile.Accepts c locals first mid x)
    (hok : x = .ok a) : Kept ρ c.scope (mid a) second := by
  rw [hx.declared a hok]
  exact h.right

end Site

namespace Compile

open Site

variable {c : Contract} {locals after : Numbering} {position : Nat}

/-! ### Operands and expressions -/

section Names

variable (hρ : Function.Injective ρ)

include hρ

/-- The use of a name has the same code. The name itself is in it only where it means a parameter.
-/
theorem nameCode_rename {inMemory inStorage : Instruction} {ofKey : Word → List Instruction}
    {scope : Scope} {name : String} {code : List Instruction}
    (hkept : Kept ρ scope locals.names [.uses name])
    (h : nameCode inMemory inStorage ofKey scope locals name = .ok code) :
    nameCode inMemory inStorage ofKey (scope.rename ρ) (locals.rename ρ) (ρ name) = .ok code := by
  unfold nameCode at h ⊢
  rw [Scope.resolve_rename hρ]
  cases hresolve : scope.resolve locals name with
  | memory slot => rwa [hresolve] at h
  | storage slot => rwa [hresolve] at h
  | mapping slot depth => rw [hresolve] at h; cases h
  | parameter =>
    -- The name itself goes into the code here, and it is one that is kept.
    obtain ⟨hlocal, hcell⟩ := Scope.resolve_eq_parameter hresolve
    rw [hresolve] at h
    rwa [hkept [] name [] rfl hlocal hcell]

/-- An entry is in the slot of the same mapping. -/
theorem mappingSlot_rename {scope : Scope} {base : String} {keys slot : Nat}
    (h : mappingSlot scope base keys = .ok slot) :
    mappingSlot (scope.rename ρ) (ρ base) keys = .ok slot := by
  obtain ⟨hcell, rfl⟩ := mappingSlot_ok h
  unfold mappingSlot
  rw [Scope.cell?_rename hρ, hcell, Scope.slot_rename hρ]
  exact if_pos rfl

end Names

theorem length_renameAll (ts : List Term) : (Term.renameAll ρ ts).length = ts.length := by
  induction ts with
  | nil => rfl
  | cons first rest ih => rw [Term.renameAll, List.length_cons, List.length_cons, ih]

mutual

/-- An operand compiles to the same code. By recursion on the tree, together with the keys of an
entry. -/
theorem term_rename (hρ : Function.Injective ρ)
    (hnodup : (c.declarations.map Declaration.name).Nodup) :
    ∀ {t : Term} {code : List Instruction}, Kept ρ c.scope locals.names t.sites →
      term c.scope locals t = .ok code →
      term (c.scope.rename ρ) (locals.rename ρ) (t.rename ρ) = .ok code
  | .literal value, code, _, h => by
    rw [Term.rename, term]
    rwa [term] at h
  | .ident name, code, hkept, h => by
    rw [Term.rename, term, readName_eq_nameCode]
    rw [term, readName_eq_nameCode] at h
    exact nameCode_rename hρ hkept h
  | .index base keys, code, hkept, h => by
    obtain ⟨slot, rest, hslot, hrest, rfl⟩ := term_index_ok h
    rw [Term.rename, term, length_renameAll]
    exact bind_eq_ok.2 ⟨slot, mappingSlot_rename hρ hslot,
      bind_eq_ok.2 ⟨rest, keyCode_rename hρ hnodup hkept.tail hrest, rfl⟩⟩

theorem keyCode_rename (hρ : Function.Injective ρ)
    (hnodup : (c.declarations.map Declaration.name).Nodup) :
    ∀ {keys : List Term} {code : List Instruction},
      Kept ρ c.scope locals.names (Term.allSites keys) → keyCode c.scope locals keys = .ok code →
      keyCode (c.scope.rename ρ) (locals.rename ρ) (Term.renameAll ρ keys) = .ok code
  | [], code, _, h => by
    rw [Term.renameAll, keyCode]
    rwa [keyCode] at h
  | key :: rest, code, hkept, h => by
    obtain ⟨first, more, hfirst, hmore, rfl⟩ := keyCode_cons_ok h
    rw [Term.allSites] at hkept
    -- A key declares nothing, so the locals are the same behind it.
    have hrest := hkept.behind (accepts_term hnodup key) hfirst
    rw [Term.renameAll, keyCode]
    exact bind_eq_ok.2 ⟨first, term_rename hρ hnodup hkept.left hfirst,
      bind_eq_ok.2 ⟨more, keyCode_rename hρ hnodup hrest hmore, rfl⟩⟩

end

section Straight

variable (hρ : Function.Injective ρ) (hnodup : (c.declarations.map Declaration.name).Nodup)

include hρ hnodup

/-- Operands in turn compile to the same code. -/
theorem terms_rename {ts : List Term} {codes : List (List Instruction)}
    (hkept : Kept ρ c.scope locals.names (Term.allSites ts))
    (h : terms c.scope locals ts = .ok codes) :
    terms (c.scope.rename ρ) (locals.rename ρ) (Term.renameAll ρ ts) = .ok codes := by
  induction ts generalizing codes with
  | nil =>
    cases h
    rfl
  | cons first rest ih =>
    obtain ⟨code, more, hfirst, hmore, rfl⟩ := terms_cons_ok h
    rw [Term.allSites] at hkept
    have hrest := hkept.behind (accepts_term hnodup first) hfirst
    rw [Term.renameAll, terms]
    exact bind_eq_ok.2 ⟨code, term_rename hρ hnodup hkept.left hfirst,
      bind_eq_ok.2 ⟨more, ih hrest hmore, rfl⟩⟩

/-- An expression compiles to the same code, as it has as many operands as before. -/
theorem expression_rename {e : Expression} {code : List Instruction}
    (hkept : Kept ρ c.scope locals.names e.sites) (h : expression c.scope locals e = .ok code) :
    expression (c.scope.rename ρ) (locals.rename ρ) (e.rename ρ) = .ok code := by
  unfold expression at h ⊢
  by_cases hbalanced : e.terms.length = e.operators.length + 1
  · rw [if_pos hbalanced] at h
    have hbalanced' : (e.rename ρ).terms.length = (e.rename ρ).operators.length + 1 :=
      (length_renameAll e.terms).trans hbalanced
    rw [if_pos hbalanced']
    obtain ⟨codes, hcodes, hmatch⟩ := bind_eq_ok.1 h
    refine bind_eq_ok.2 ⟨codes, terms_rename hρ hnodup hkept.tail hcodes, ?_⟩
    -- What is made of the codes of the operands does not depend on names.
    cases codes with
    | nil => cases hmatch
    | cons first rest => exact hmatch
  · rw [if_neg hbalanced] at h
    cases h

/-- A declaration of a local compiles to the same code, and the locals after it are renamed. -/
theorem localVariable_rename {v : LocalVariable} {code : List Instruction}
    (hkept : Kept ρ c.scope locals.names v.sites)
    (h : localVariable c.scope locals v = .ok (code, after)) :
    localVariable (c.scope.rename ρ) (locals.rename ρ) (v.rename ρ)
      = .ok (code, after.rename ρ) := by
  obtain ⟨value, hvalue, rfl, rfl⟩ := localVariable_ok h
  -- The value is compiled before the name counts, and the name then takes the same slot.
  refine bind_eq_ok.2 ⟨value, expression_rename hρ hnodup hkept.left hvalue, ?_⟩
  show Except.ok (value ++ [pushNat ((locals.rename ρ).number (ρ v.name)).1, .mstore],
    ((locals.rename ρ).number (ρ v.name)).2) = _
  rw [Numbering.number_rename hρ]

/-- A target is stored to by the same code. The expression that an error would show may be any. -/
theorem store_rename {target target' : Expression} {t : Term} {code : List Instruction}
    (hkept : Kept ρ c.scope locals.names t.sites) (h : store c.scope locals target t = .ok code) :
    store (c.scope.rename ρ) (locals.rename ρ) target' (t.rename ρ) = .ok code := by
  cases t with
  | literal value => cases h
  | ident name =>
    rw [Term.rename, store, writeName_eq_nameCode]
    rw [store, writeName_eq_nameCode] at h
    exact nameCode_rename hρ hkept h
  | index base keys =>
    obtain ⟨place, hplace, rfl⟩ := store_index_ok h
    obtain ⟨slot, rest, hslot, hrest, rfl⟩ := address_ok hplace
    rw [Term.rename, store, address, length_renameAll]
    exact bind_eq_ok.2 ⟨_, bind_eq_ok.2 ⟨slot, mappingSlot_rename hρ hslot,
      bind_eq_ok.2 ⟨rest, keyCode_rename hρ hnodup hkept.tail hrest, rfl⟩⟩, rfl⟩

/-- An assignment compiles to the same code. -/
theorem assignment_rename {a : Assignment} {code : List Instruction}
    (hkept : Kept ρ c.scope locals.names a.sites)
    (h : assignment c.scope locals a = .ok code) :
    assignment (c.scope.rename ρ) (locals.rename ρ) (a.rename ρ) = .ok code := by
  obtain ⟨t, value, rest, ht, hvalue, hrest, rfl⟩ := assignment_ok h
  obtain ⟨hterms, hoperators⟩ := singleTerm?_eq_some_iff.1 ht
  -- The target is one operand after renaming too.
  have htarget : (a.rename ρ).target.singleTerm? = some (t.rename ρ) := by
    refine singleTerm?_eq_some_iff.2 ⟨?_, hoperators⟩
    show Term.renameAll ρ a.target.terms = [t.rename ρ]
    rw [hterms]
    rfl
  -- The sites of the target come behind those of the value.
  have hplace : Kept ρ c.scope locals.names t.sites := by
    have hsites := hkept.tail.behind (accepts_expression hnodup a.value) hvalue
    rw [hterms] at hsites
    exact hsites.left
  unfold assignment
  rw [htarget]
  exact bind_eq_ok.2 ⟨value, expression_rename hρ hnodup hkept.tail.left hvalue,
    bind_eq_ok.2 ⟨rest, store_rename hρ hnodup hplace hrest, rfl⟩⟩

end Straight

/-! ### Statements -/

mutual

/-- A statement compiles to the same code. By recursion on the tree, together with blocks and second
arms. -/
theorem statement_rename (hρ : Function.Injective ρ)
    (hnodup : (c.declarations.map Declaration.name).Nodup) :
    ∀ {s : Statement} {position : Nat} {locals after : Numbering} {code : List Symbol},
      Kept ρ c.scope locals.names s.sites →
      statement c.scope position locals s = .ok (code, after) →
      statement (c.scope.rename ρ) position (locals.rename ρ) (s.rename ρ)
        = .ok (code, after.rename ρ)
  | .returns value, position, locals, after, code, hkept, h => by
    obtain ⟨valueCode, hvalue, rfl, rfl⟩ := statement_returns_ok h
    rw [Statement.rename, statement]
    exact bind_eq_ok.2 ⟨valueCode, expression_rename hρ hnodup hkept hvalue, rfl⟩
  | .assign a, position, locals, after, code, hkept, h => by
    obtain ⟨assignCode, hassign, rfl, rfl⟩ := statement_assign_ok h
    rw [Statement.rename, statement]
    exact bind_eq_ok.2 ⟨assignCode, assignment_rename hρ hnodup hkept hassign, rfl⟩
  | .declare v, position, locals, after, code, hkept, h => by
    obtain ⟨declareCode, hdeclare, rfl⟩ := statement_declare_ok h
    rw [Statement.rename, statement]
    exact bind_eq_ok.2 ⟨_, localVariable_rename hρ hnodup hkept hdeclare, rfl⟩
  | .branch condition thenBody elseBody, position, locals, after, code, hkept, h => by
    obtain ⟨test, thenCode, middle, elseCode, skip, htest, hthen, helse, rfl⟩ :=
      statement_branch_ok h
    rw [Statement.sites] at hkept
    -- The locals of the first arm still count in the second.
    have harms := hkept.behind (accepts_expression hnodup condition) htest
    have harm := harms.behind (accepts_block hnodup thenBody _ locals) hthen
    rw [Statement.rename, statement]
    exact bind_eq_ok.2 ⟨test, expression_rename hρ hnodup hkept.left htest,
      bind_eq_ok.2 ⟨_, block_rename hρ hnodup harms.left hthen,
        bind_eq_ok.2 ⟨_, elseArm_rename hρ hnodup harm helse, rfl⟩⟩⟩
  | .loop start condition step body, position, locals, after, code, hkept, h => by
    obtain ⟨startCode, inner, test, bodyCode, stepCode, hstart, htest, hbody, hstep, rfl⟩ :=
      statement_loop_ok h
    rw [Statement.sites] at hkept
    -- The step stands behind the body, so it is compiled with the locals of the body.
    have hinner := hkept.behind (accepts_localVariable hnodup start) hstart
    have hblock := hinner.behind (accepts_expression hnodup condition) htest
    have hlast := hblock.behind (accepts_block hnodup body _ inner) hbody
    rw [Statement.rename, statement]
    exact bind_eq_ok.2 ⟨_, localVariable_rename hρ hnodup hkept.left hstart,
      bind_eq_ok.2 ⟨test, expression_rename hρ hnodup hinner.left htest,
        bind_eq_ok.2 ⟨_, block_rename hρ hnodup hblock.left hbody,
          bind_eq_ok.2 ⟨stepCode, assignment_rename hρ hnodup hlast hstep, rfl⟩⟩⟩⟩

/-- Statements in turn compile to the same code, with the locals renamed from each to the next. -/
theorem block_rename (hρ : Function.Injective ρ)
    (hnodup : (c.declarations.map Declaration.name).Nodup) :
    ∀ {body : List Statement} {position : Nat} {locals after : Numbering} {code : List Symbol},
      Kept ρ c.scope locals.names (Statement.allSites body) →
      block c.scope position locals body = .ok (code, after) →
      block (c.scope.rename ρ) position (locals.rename ρ) (Statement.renameAll ρ body)
        = .ok (code, after.rename ρ)
  | [], position, locals, after, code, _, h => by
    obtain ⟨rfl, rfl⟩ := block_nil_ok h
    rw [Statement.renameAll, block]
  | first :: rest, position, locals, after, code, hkept, h => by
    obtain ⟨firstCode, middle, restCode, hfirst, hrest, rfl⟩ := block_cons_ok h
    rw [Statement.allSites] at hkept
    have hmore := hkept.behind (accepts_statement hnodup first position locals) hfirst
    rw [Statement.renameAll, block]
    exact bind_eq_ok.2 ⟨_, statement_rename hρ hnodup hkept.left hfirst,
      bind_eq_ok.2 ⟨_, block_rename hρ hnodup hmore hrest, rfl⟩⟩

theorem elseArm_rename (hρ : Function.Injective ρ)
    (hnodup : (c.declarations.map Declaration.name).Nodup) :
    ∀ {elseBody : Option (List Statement)} {position : Nat} {locals after : Numbering}
      {code : List Symbol} {skip : List Instruction},
      Kept ρ c.scope locals.names (Statement.armSites elseBody) →
      elseArm c.scope position locals elseBody = .ok (code, skip, after) →
      elseArm (c.scope.rename ρ) position (locals.rename ρ) (Statement.renameArm ρ elseBody)
        = .ok (code, skip, after.rename ρ)
  | none, position, locals, after, code, skip, _, h => by
    obtain ⟨rfl, rfl, rfl⟩ := elseArm_none_ok h
    rw [Statement.renameArm, elseArm]
  | some body, position, locals, after, code, skip, hkept, h => by
    obtain ⟨hbody, rfl⟩ := elseArm_some_ok h
    rw [Statement.armSites] at hkept
    rw [Statement.renameArm, elseArm]
    exact bind_eq_ok.2 ⟨_, block_rename hρ hnodup hkept hbody, rfl⟩

end

/-- The body of a function compiles to the same symbols. -/
theorem bodyFrom_rename (hρ : Function.Injective ρ)
    (hnodup : (c.declarations.map Declaration.name).Nodup) {statements : List Statement}
    {position : Nat} {locals : Numbering} {code : List Symbol}
    (hkept : Kept ρ c.scope locals.names (Statement.allSites statements))
    (h : bodyFrom c.scope position locals statements = .ok code) :
    bodyFrom (c.scope.rename ρ) position (locals.rename ρ) (Statement.renameAll ρ statements)
      = .ok code := by
  induction statements generalizing position locals code with
  | nil =>
    cases h
    rfl
  | cons first rest ih =>
    rw [Statement.allSites] at hkept
    by_cases hlast : ∃ value, first = .returns value ∧ rest = []
    · obtain ⟨value, rfl, rfl⟩ := hlast
      obtain ⟨valueCode, hvalue, rfl⟩ := bodyFrom_last_ok h
      rw [Statement.renameAll, Statement.renameAll, Statement.rename, bodyFrom]
      exact bind_eq_ok.2 ⟨valueCode, expression_rename hρ hnodup hkept.left hvalue, rfl⟩
    · obtain ⟨firstCode, middle, restCode, hfirst, hrest, rfl⟩ :=
        bodyFrom_cons_ok (fun value hvalue => hlast ⟨value, hvalue⟩) h
      have hmore := hkept.behind (accepts_statement hnodup first position locals) hfirst
      rw [Statement.renameAll, bodyFrom]
      · exact bind_eq_ok.2 ⟨_, statement_rename hρ hnodup hkept.left hfirst,
          bind_eq_ok.2 ⟨restCode, ih hmore hrest, rfl⟩⟩
      · -- Renaming makes no statement a last `return` that was none.
        intro value hvalue hnil
        cases rest with
        | cons next rest => rw [Statement.renameAll] at hnil; cases hnil
        | nil =>
          cases first with
          | returns value' => exact hlast ⟨value', rfl, rfl⟩
          | _ => rw [Statement.rename] at hvalue; cases hvalue

/-! ### Functions and contracts -/

/-- Its settled code is the same, as that depends on the symbols only. -/
theorem body_rename (hρ : Function.Injective ρ)
    (hnodup : (c.declarations.map Declaration.name).Nodup) {statements : List Statement}
    {code : List Instruction} (hkept : Kept ρ c.scope [] (Statement.allSites statements))
    (h : body c.scope statements = .ok code) :
    body (c.scope.rename ρ) (Statement.renameAll ρ statements) = .ok code := by
  obtain ⟨symbols, hsymbols, rfl⟩ := body_ok h
  have hrenamed := bodyFrom_rename hρ hnodup hkept hsymbols
  unfold body
  show Except.map settle (bodyFrom (c.scope.rename ρ) 0 (Numbering.rename ρ {}) _) = _
  rw [hrenamed]
  rfl

/-- Parameters pass their check after renaming, since different names stay different. -/
theorem checkParameters_rename (hρ : Function.Injective ρ) {scope : Scope} {name name' : String}
    {ps ps' : List Parameter} (hnames : ps'.map Parameter.name = ps.map fun p => ρ p.name)
    (h : checkParameters scope name [] ps = .ok ()) :
    checkParameters (scope.rename ρ) name' [] ps' = .ok () := by
  obtain ⟨⟨hnodup, -⟩, hcells⟩ := checkParameters_ok_iff.1 h
  refine checkParameters_ok_iff.2 ⟨⟨?_, fun _ _ => List.not_mem_nil⟩, ?_⟩
  · -- An injective map keeps the names different.
    have hmap : ps'.map Parameter.name = (ps.map Parameter.name).map ρ := by
      rw [hnames, List.map_map]
      rfl
    rw [hmap]
    exact (List.nodup_map_iff hρ).2 hnodup
  · intro p' hp'
    have hmem : p'.name ∈ ps.map fun p => ρ p.name := hnames ▸ List.mem_map_of_mem hp'
    obtain ⟨p, hp, hname⟩ := List.mem_map.1 hmem
    rw [← hname, Scope.cell?_rename hρ]
    exact hcells p hp

/-- The words of parameters depend on their names, and not on their types. -/
theorem parameterWords_congr {ps ps' : List Parameter}
    (h : ps'.map Parameter.name = ps.map Parameter.name) :
    parameterWords ps' = parameterWords ps := by
  induction ps generalizing ps' with
  | nil =>
    rw [List.map_nil, List.map_eq_nil_iff] at h
    rw [h]
  | cons p rest ih =>
    obtain ⟨p', rest', rfl, hname, hrest⟩ := List.map_eq_cons_iff.1 h
    rw [parameterWords, parameterWords, hname, ih hrest]

/-- A function compiles to the same code if the names of its parameters are kept. -/
theorem function_rename (hρ : Function.Injective ρ)
    (hnodup : (c.declarations.map Declaration.name).Nodup) {f f' : FunctionDeclaration}
    {code : FunctionCode} (hrenamed : f.Renamed ρ f')
    (hparameters : ∀ p ∈ f.parameters, ρ p.name = p.name) (hkept : Kept ρ c.scope [] f.sites)
    (h : function c.scope f = .ok code) : function (c.scope.rename ρ) f' = .ok code := by
  obtain ⟨hcheck, hwords, hbody⟩ := function_ok h
  -- Parameters are the names that stay in the code, and they are kept.
  have hwords' : parameterWords f'.parameters = .ok code.parameters := by
    rw [parameterWords_congr (hrenamed.parameters.trans (List.map_congr_left hparameters)), hwords]
  have hbody' : body (c.scope.rename ρ) f'.body = .ok code.body := by
    rw [hrenamed.body]
    exact body_rename hρ hnodup hkept hbody
  exact bind_eq_ok.2 ⟨(), checkParameters_rename hρ hrenamed.parameters hcheck,
    bind_eq_ok.2 ⟨_, hwords', bind_eq_ok.2 ⟨_, hbody', rfl⟩⟩⟩

/-- Functions in turn compile to the same code. -/
theorem functions_rename (hρ : Function.Injective ρ)
    (hnodup : (c.declarations.map Declaration.name).Nodup) {fs fs' : List FunctionDeclaration}
    {codes : List FunctionCode} (hrenamed : List.Forall₂ (FunctionDeclaration.Renamed ρ) fs fs')
    (hparameters : ∀ f ∈ fs, ∀ p ∈ f.parameters, ρ p.name = p.name)
    (hkept : ∀ f ∈ fs, Kept ρ c.scope [] f.sites) (h : functions c.scope fs = .ok codes) :
    functions (c.scope.rename ρ) fs' = .ok codes := by
  induction hrenamed generalizing codes with
  | nil => exact h
  | cons hfirst _ ih =>
    rw [List.forall_mem_cons] at hparameters hkept
    simp only [functions, bind_eq_ok, pure_eq_ok] at h
    obtain ⟨code, hcode, more, hmore, rfl⟩ := h
    exact bind_eq_ok.2 ⟨code, function_rename hρ hnodup hfirst hparameters.1 hkept.1 hcode,
      bind_eq_ok.2 ⟨more, ih hparameters.2 hkept.2 hmore, rfl⟩⟩

/-- The initial values are stored by the same code, and the slots are renamed. -/
theorem initialization_rename (hρ : Function.Injective ρ) {ds ds' : List Declaration}
    {slots slots' : Numbering} {code : List Instruction}
    (hrenamed : List.Forall₂ (Declaration.Renamed ρ) ds ds')
    (h : initialization slots ds = .ok (code, slots')) :
    initialization (slots.rename ρ) ds' = .ok (code, slots'.rename ρ) := by
  induction hrenamed generalizing slots code with
  | nil =>
    cases h
    rfl
  | cons hfirst _ ih =>
    cases hfirst with
    | variable_ name type type' value =>
      simp only [initialization, bind_eq_ok, pure_eq_ok, Prod.mk.injEq, Prod.exists] at h
      obtain ⟨w, hw, restCode, slots'', hrest, rfl, rfl⟩ := h
      rw [initialization, Numbering.number_rename hρ]
      exact bind_eq_ok.2 ⟨w, hw, bind_eq_ok.2 ⟨_, ih hrest, rfl⟩⟩
    | mapping name valueType valueType' hlength =>
      rw [initialization] at h ⊢
      rw [Numbering.number_rename hρ]
      exact ih h
    | function hf =>
      -- A function has no slot.
      rw [initialization] at h ⊢
      exact ih h

end Compile

namespace Declaration.Renamed

variable {d d' : Declaration} {ds ds' : List Declaration}

theorem name_eq (h : d.Renamed ρ d') : d'.name = ρ d.name := by
  cases h with
  | variable_ name type type' value => rfl
  | mapping name valueType valueType' hlength => rfl
  | function hf => exact hf.name

theorem cell?_eq (h : d.Renamed ρ d') : d'.cell? = d.cell?.map (Prod.map ρ id) := by
  cases h with
  | variable_ name type type' value => rfl
  | mapping name valueType valueType' hlength =>
    rw [Declaration.cell?, hlength]
    rfl
  | function hf => rfl

theorem map_name (h : List.Forall₂ (Declaration.Renamed ρ) ds ds') :
    ds'.map Declaration.name = (ds.map Declaration.name).map ρ := by
  induction h with
  | nil => rfl
  | cons hfirst _ ih => rw [List.map_cons, List.map_cons, List.map_cons, hfirst.name_eq, ih]

theorem cells (h : List.Forall₂ (Declaration.Renamed ρ) ds ds') :
    ds'.filterMap Declaration.cell? = (ds.filterMap Declaration.cell?).map (Prod.map ρ id) := by
  induction h with
  | nil => rfl
  | cons hfirst _ ih =>
    rw [List.filterMap_cons, List.filterMap_cons, hfirst.cell?_eq, ih]
    cases Declaration.cell? _ with
    | none => rfl
    | some cell => rfl

end Declaration.Renamed

namespace Contract

variable {c c' : Contract} {p : Program}

/-- The scope of a renamed contract is the renamed scope. -/
theorem Renamed.scope_eq (h : c.Renamed ρ c') : c'.scope = c.scope.rename ρ := by
  have hcells := Declaration.Renamed.cells h
  unfold scope Scope.rename Numbering.rename
  simp only [hcells, List.map_map]
  rfl

/-- Its functions are the renamed functions, in the same order. -/
theorem Renamed.functions (h : c.Renamed ρ c') :
    List.Forall₂ (FunctionDeclaration.Renamed ρ) c.functions c'.functions := by
  obtain ⟨name, ds⟩ := c
  obtain ⟨name', ds'⟩ := c'
  have hds : List.Forall₂ (Declaration.Renamed ρ) ds ds' := h
  unfold Contract.functions
  clear h
  induction hds with
  | nil => exact .nil
  | cons hfirst _ ih =>
    cases hfirst with
    | variable_ name type type' value => exact ih
    | mapping name valueType valueType' hlength => exact ih
    | function hf => exact .cons hf ih

/-- A map that keeps the names a function uses free keeps all names that its code can show. -/
theorem kept_of_usesFree (hnodup : (c.declarations.map Declaration.name).Nodup)
    {f : FunctionDeclaration} (h : ∀ name, f.UsesFree c name → ρ name = name) :
    Site.Kept ρ c.scope [] f.sites := by
  intro before name after hsites hlocal hcell
  exact h name ⟨⟨before, after, hsites, mt Site.mem_declareAll_nil.2 hlocal⟩,
    (cell?_eq_none_iff hnodup).1 hcell⟩

/-- **Programs do not depend on internal names.** A map on names that is injective and keeps the
names of parameters and the names used free changes nothing in the program of a contract, and so
nothing in its address; neither do the name of the contract and the names of types. -/
theorem program_is_independent_of_names (hρ : Function.Injective ρ) (hcompile : c.compile = .ok p)
    (hparameters : ∀ f ∈ c.functions, ∀ q ∈ f.parameters, ρ q.name = q.name)
    (hfree : ∀ f ∈ c.functions, ∀ name, f.UsesFree c name → ρ name = name)
    (hrenamed : c.Renamed ρ c') :
    c'.compile = .ok p ∧ c'.compile.map Program.address = .ok p.address := by
  obtain ⟨hnodup, ⟨slots, hinit⟩, codes, hcodes, htable⟩ := compile_ok hcompile
  have hnodup' : (c'.declarations.map Declaration.name).Nodup := by
    rw [Declaration.Renamed.map_name hrenamed]
    exact (List.nodup_map_iff hρ).2 hnodup
  have hcodes' : Compile.functions c'.scope c'.functions = .ok codes := by
    rw [hrenamed.scope_eq]
    exact Compile.functions_rename hρ hnodup hrenamed.functions hparameters
      (fun f hf => kept_of_usesFree hnodup (hfree f hf)) hcodes
  -- The names of functions go nowhere: only the order of the declarations counts.
  have hsame : c'.compile = .ok p := by
    rw [compile_eq hnodup']
    refine bind_eq_ok.2 ⟨_, Compile.initialization_rename hρ hrenamed hinit, ?_⟩
    refine bind_eq_ok.2 ⟨codes, hcodes', ?_⟩
    rw [← htable]
    rfl
  refine ⟨hsame, ?_⟩
  rw [hsame]
  rfl

/-- `func pay(who: Text, sum: Int) { owed[who] = total + sum  var total = total * rate
return total }`, with a local that hides a storage variable and a name that is used free. -/
def shop : Contract :=
  ⟨"Shop",
    [.variable_ ⟨"total", "Int", .int 3⟩, .mapping ⟨"owed", ["Text"], "Int"⟩,
      .function ⟨"pay", [⟨"who", "Text"⟩, ⟨"sum", "Int"⟩], some "Int",
        [.assign ⟨⟨[.index "owed" [.ident "who"]], []⟩, ⟨[.ident "total", .ident "sum"], [.add]⟩⟩,
          .declare ⟨"total", ⟨[.ident "total", .ident "rate"], [.multiply]⟩⟩,
          .returns ⟨[.ident "total"], []⟩]⟩]⟩

/-- The same with the names of the storage variable and of the mapping exchanged, and other names of
types. -/
def stall : Contract :=
  ⟨"Stall",
    [.variable_ ⟨"owed", "Bool", .int 3⟩, .mapping ⟨"total", ["Bool"], "Text"⟩,
      .function ⟨"pay", [⟨"who", "Int"⟩, ⟨"sum", "Bool"⟩], none,
        [.assign ⟨⟨[.index "total" [.ident "who"]], []⟩, ⟨[.ident "owed", .ident "sum"], [.add]⟩⟩,
          .declare ⟨"owed", ⟨[.ident "owed", .ident "rate"], [.multiply]⟩⟩,
          .returns ⟨[.ident "owed"], []⟩]⟩]⟩

/-- The two names that are exchanged are those of a storage variable and of a mapping. One of them
is also the name of a local, which is renamed with it. -/
theorem shop_and_stall_share_a_program :
    shop.Renamed (Equiv.swap "total" "owed") stall
      ∧ ∃ p, shop.compile = .ok p ∧ stall.compile = .ok p := by
  have hrenamed : shop.Renamed (Equiv.swap "total" "owed") stall :=
    .cons (.variable_ _ _ _ _) (.cons (.mapping _ _ _ rfl) (.cons (.function ⟨rfl, rfl, rfl⟩) .nil))
  have hshop : (shop.compile.toOption.any fun _ => true) = true := by decide +kernel
  obtain ⟨p, hp, -⟩ := exists_ok_of_any hshop
  refine ⟨hrenamed, p, hp, ?_⟩
  refine (program_is_independent_of_names (Equiv.injective _) hp ?_ ?_ hrenamed).1
  · decide
  · rintro f hf name ⟨⟨before, after, hsites, -⟩, hvariable, -⟩
    have hmem : .uses name ∈ f.sites := by
      rw [hsites]
      simp
    -- The names in use can be listed, and the one that is moved is not free.
    have hname : name = "total" ∨ name = "sum" ∨ name = "who" ∨ name = "rate" := by
      rw [List.mem_singleton.1 hf] at hmem
      simp [FunctionDeclaration.sites, Statement.allSites, Statement.sites, Assignment.sites,
        LocalVariable.sites, Expression.sites, Term.allSites, Term.sites] at hmem
      tauto
    rcases hname with rfl | rfl | rfl | rfl
    · exact absurd ⟨_, List.mem_cons_self, rfl⟩ hvariable
    · decide
    · decide
    · decide

end Contract

end Covenant
