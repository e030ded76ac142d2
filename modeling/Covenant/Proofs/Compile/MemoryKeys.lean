import Covenant.Proofs.Compile.Renaming
import Covenant.Proofs.Compile.StackNeed
import Covenant.Proofs.Machine.Memory
import Covenant.Proofs.Slots
import Covenant.Proofs.Word.Texts

/-!
# The memory keys of a function

All variables of a call are in one memory. A local is kept under its number, which fills a word from
the right; a parameter, or a name that means nothing else, is kept under its text, which fills a word
from the left. That no two variables get in each other's way rests on the numbers of locals, on what
the scanner takes for a name, and on the length of names that compilation allows.

* `Variable.key?` is the key of a variable, and `FunctionDeclaration.Has` says which variables a
  function has.
* `Touches` compares code with the sites it was compiled from: it goes to the cells of the variables
  of the sites, in their order. It is closed under `append`, so each construct is one lemma, up to
  `touches_function`.
* `FunctionDeclaration.Has.key?_inj` says that different variables have different keys, and
  `exists_cellsApart` that the code of a function has just these.
-/

namespace Covenant

/-! ### Variables and their keys -/

/-- What is kept in the memory of a call. A local is another variable than a parameter, even if the
two have the same name. -/
inductive Variable where
  | local_ (name : String)
  /-- A parameter, or a name that means nothing else. -/
  | named (name : String)
  deriving DecidableEq

/-- The key of a variable in a function with these locals, in the order of their declarations. -/
def Variable.key? (locals : List String) : Variable → Option Word
  | .local_ name => (Numbering.lookup? ⟨locals⟩ name).map Word.ofNat
  | .named name => (Word.ofText name).toOption

namespace FunctionDeclaration

/-- The locals of a function, in the order in which they are first declared. -/
def locals (f : FunctionDeclaration) : List String := Site.declareAll [] f.sites

/-- The variables of a function of a contract. -/
inductive Has (c : Contract) (f : FunctionDeclaration) : Variable → Prop
  | local_ {name : String} (h : .declares name ∈ f.sites) : Has c f (.local_ name)
  | parameter {p : Parameter} (h : p ∈ f.parameters) : Has c f (.named p.name)
  | free {name : String} (h : f.UsesFree c name) : Has c f (.named name)

end FunctionDeclaration

/-! ### Variables in sites -/

namespace Site

/-- The variable that a site reads, writes or declares, after the locals declared so far. -/
def touched? (scope : Scope) (locals : List String) : Site → Option Variable
  | .uses name =>
    if name ∈ locals then some (.local_ name)
    else if scope.cell? name = none then some (.named name) else none
  | .declares name => some (.local_ name)
  | _ => none

/-- The variables of several sites, in turn. -/
def touched (scope : Scope) (locals : List String) : List Site → List Variable
  | [] => []
  | site :: rest =>
    (site.touched? scope locals).toList ++ touched scope (site.declare locals) rest

variable {scope : Scope} {locals : List String} {first second sites : List Site} {v : Variable}

theorem declareAll_append (locals : List String) (first second : List Site) :
    declareAll locals (first ++ second) = declareAll (declareAll locals first) second :=
  List.foldl_append

/-- The variables of sites in turn, where the first ones have declared locals. -/
theorem touched_append :
    touched scope locals (first ++ second)
      = touched scope locals first ++ touched scope (declareAll locals first) second := by
  induction first generalizing locals with
  | nil => rfl
  | cons site rest ih =>
    rw [List.cons_append, touched, touched, ih, List.append_assoc]
    rfl

/-- A variable of several sites is a variable of one of them, with the locals declared before it. -/
theorem mem_touched :
    v ∈ touched scope locals sites
      ↔ ∃ before site after, sites = before ++ site :: after
        ∧ site.touched? scope (declareAll locals before) = some v := by
  constructor
  · intro h
    induction sites generalizing locals with
    | nil => cases h
    | cons site rest ih =>
      rcases List.mem_append.1 h with hhere | hrest
      · exact ⟨[], site, rest, rfl, Option.mem_toList.1 hhere⟩
      · obtain ⟨before, other, after, rfl, hother⟩ := ih hrest
        exact ⟨site :: before, other, after, rfl, hother⟩
  · rintro ⟨before, site, after, rfl, hsite⟩
    -- The site comes behind some others, which have declared what they declare.
    rw [touched_append]
    exact List.mem_append_right _ (List.mem_append_left _ (Option.mem_toList.2 hsite))

/-- Every local of some sites that is new is one of their variables. -/
theorem length_declareAll_le (scope : Scope) :
    (declareAll locals sites).length
      ≤ locals.length + (touched scope locals sites).length := by
  induction sites generalizing locals with
  | nil => exact Nat.le_refl _
  | cons site rest ih =>
    have hsite : (site.declare locals).length
        ≤ locals.length + (site.touched? scope locals).toList.length := by
      cases site with
      | declares name =>
        show (Evaluation.declare locals name).length ≤ locals.length + 1
        unfold Evaluation.declare
        split
        · exact Nat.le_succ _
        · rw [List.length_append]
          exact Nat.le_refl _
      | _ => exact Nat.le_add_right _ _
    have hrest : (declareAll (site.declare locals) rest).length
        ≤ (site.declare locals).length + (touched scope (site.declare locals) rest).length := ih
    rw [touched, List.length_append]
    show (declareAll (site.declare locals) rest).length ≤ _
    omega

end Site

/-- A local that has its number keeps it, whatever is declared later. -/
theorem Variable.key?_declareAll {v : Variable} {locals : List String} {key : Word}
    (h : v.key? locals = some key) (sites : List Site) :
    v.key? (Site.declareAll locals sites) = some key := by
  induction sites generalizing locals with
  | nil => exact h
  | cons site rest ih =>
    show v.key? (Site.declareAll (site.declare locals) rest) = some key
    -- One more declaration at the end of the numbering moves nothing.
    refine ih ?_
    cases site with
    | declares other =>
      cases v with
      | named name => exact h
      | local_ name =>
        obtain ⟨slot, hslot, rfl⟩ := Option.map_eq_some_iff.1 h
        have hkept := Numbering.lookup?_number_of_lookup? hslot other
        rw [Numbering.lookup?, Compile.names_number] at hkept
        exact Option.map_eq_some_iff.2 ⟨slot, hkept, rfl⟩
    | _ => exact h

/-! ### Code and its sites -/

/-- Code was compiled from sites after these locals, as far as the memory is concerned: it goes to the
cells of the variables of the sites, one after the other. -/
def Touches (scope : Scope) (locals : List String) (sites : List Site) (code : List Instruction) :
    Prop :=
  ∃ keys, MemoryKeys code keys
    ∧ List.Forall₂ (fun v key => v.key? (Site.declareAll locals sites) = some key)
      (Site.touched scope locals sites) keys

namespace Touches

variable {scope : Scope} {locals : List String} {first second sites : List Site}
  {code code' : List Instruction}

/-- Code from sites in turn goes to the cells of both, in turn. -/
theorem append (h : Touches scope locals first code)
    (h' : Touches scope (Site.declareAll locals first) second code') :
    Touches scope locals (first ++ second) (code ++ code') := by
  obtain ⟨keys, hkeys, hvariables⟩ := h
  obtain ⟨keys', hkeys', hvariables'⟩ := h'
  refine ⟨keys ++ keys', hkeys.append hkeys', ?_⟩
  rw [Site.touched_append, Site.declareAll_append]
  -- What is declared later does not change the keys of the variables before.
  exact List.rel_append (hvariables.imp fun _ _ hkey => Variable.key?_declareAll hkey second)
    hvariables'

/-- Code after sites that were compiled. -/
theorem behind {α : Type} {c : Contract} {mid : α → List String} {x : Except CompileError α} {a : α}
    (h : Touches c.scope locals first code) (hx : Compile.Accepts c locals first mid x)
    (hok : x = .ok a) (h' : Touches c.scope (mid a) second code') :
    Touches c.scope locals (first ++ second) (code ++ code') := by
  rw [hx.declared a hok] at h'
  exact h.append h'

/-- Code that does not use the memory needs no sites. -/
theorem quiet (h : ∀ i ∈ code, i.usesMemory = false) : Touches scope locals [] code :=
  ⟨[], .of_usesMemory h, .nil⟩

theorem cons (h : Touches scope locals sites code) {i : Instruction} (hi : i.usesMemory = false) :
    Touches scope locals sites (i :: code) := by
  obtain ⟨keys, hkeys, hvariables⟩ := h
  exact ⟨keys, .other hi hkeys, hvariables⟩

/-- Code that does not use the memory may come in front. -/
theorem quiet_append (h : Touches scope locals sites code')
    (hquiet : ∀ i ∈ code, i.usesMemory = false) : Touches scope locals sites (code ++ code') :=
  (quiet hquiet).append h

/-- Code that does not use the memory may come behind. -/
theorem append_quiet (h : Touches scope locals sites code)
    (hquiet : ∀ i ∈ code', i.usesMemory = false) : Touches scope locals sites (code ++ code') := by
  have happend := h.append (quiet hquiet)
  rwa [List.append_nil] at happend

/-- A test, under the position to go to if it fails. -/
theorem test (h : Touches scope locals sites code) (target : Nat) :
    Touches scope locals sites (Compile.pushNat target :: code ++ [.jumpi]) :=
  (h.cons rfl).append_quiet (List.forall_mem_singleton.2 rfl)

/-- A jump after code. -/
theorem jump (h : Touches scope locals sites code) (target : Nat) :
    Touches scope locals sites (code ++ [Compile.pushNat target, .jump]) :=
  h.append_quiet (List.forall_mem_cons.2 ⟨rfl, List.forall_mem_singleton.2 rfl⟩)

/-- A site without a variable of its own. -/
theorem site {site : Site} (h : Touches scope locals sites code)
    (hvariable : site.touched? scope locals = none) (hdeclare : site.declare locals = locals) :
    Touches scope locals (site :: sites) code := by
  unfold Touches Site.declareAll at h ⊢
  rwa [List.foldl_cons, Site.touched, hvariable, hdeclare]

/-- The entry of a mapping, from its slot over its keys to what is done with the address. -/
theorem entry (h : Touches scope locals sites code) (base : String) (keys slot : Nat)
    {i : Instruction} (hi : i.usesMemory = false) :
    Touches scope locals (.entry base keys :: sites) (Compile.pushNat slot :: code ++ [i]) :=
  ((h.cons rfl).append_quiet (List.forall_mem_singleton.2 hi)).site rfl rfl

/-- A site whose variable has this key. -/
theorem single {site : Site} {v : Variable} {key : Word} (h : MemoryKeys code [key])
    (hvariable : site.touched? scope locals = some v)
    (hkey : v.key? (site.declare locals) = some key) : Touches scope locals [site] code := by
  refine ⟨[key], h, ?_⟩
  rw [Site.touched, hvariable]
  exact .cons hkey .nil

end Touches

namespace Compile

variable {c : Contract} {locals after : Numbering} {length : Nat}

/-- A name is a local or a parameter, and then its cell is gone to, or it is in the storage. -/
theorem touches_nameCode {inMemory inStorage : Instruction} {ofKey : Word → List Instruction}
    (hmemory : inMemory = .mload ∨ inMemory = .mstore) (hstorage : inStorage.usesMemory = false)
    (hkey : ∀ key, MemoryKeys (ofKey key) [key]) {scope : Scope} {name : String}
    {code : List Instruction}
    (h : nameCode inMemory inStorage ofKey scope locals name = .ok code) :
    Touches scope locals.names [.uses name] code := by
  unfold nameCode Scope.resolve at h
  cases hlocal : locals.lookup? name with
  | some slot =>
    -- A local that has a number is a local.
    have hmem : name ∈ locals.names := by
      by_contra habsent
      rw [Numbering.lookup?, List.idxOf?_eq_none_iff.2 habsent] at hlocal
      cases hlocal
    rw [hlocal] at h
    cases h
    exact .single (.cell hmemory .nil) (if_pos hmem)
      (Option.map_eq_some_iff.2 ⟨slot, hlocal, rfl⟩)
  | none =>
    have habsent : name ∉ locals.names := List.idxOf?_eq_none_iff.1 hlocal
    rw [hlocal] at h
    cases hcell : scope.cell? name with
    | none =>
      rw [hcell] at h
      obtain ⟨key, htext, hcode⟩ := bind_eq_ok.1 h
      cases hcode
      -- The text of the name is its key.
      refine .single (v := .named name) (hkey key) ?_ (toOption_eq_some.2 (textWord_ok htext))
      rw [Site.touched?, if_neg habsent, if_pos hcell]
    | some cell =>
      rw [hcell] at h
      cases cell with
      | mapping depth => cases h
      | variable_ =>
        cases h
        refine .site (.cons (.quiet (List.forall_mem_singleton.2 hstorage)) rfl) ?_ rfl
        rw [Site.touched?, if_neg habsent, if_neg (by rw [hcell]; simp)]

/-! ### Operands and expressions -/

mutual

/-- An operand goes to the cells of the names it reads. Those in its keys come in the order of the
keys, and a storage variable has no cell. -/
theorem touches_term (hnodup : (c.declarations.map Declaration.name).Nodup) :
    ∀ {t : Term} {code : List Instruction}, term c.scope locals t = .ok code →
      Touches c.scope locals.names t.sites code
  | .literal value, code, h => by
    obtain ⟨w, -, rfl⟩ := term_literal_ok h
    exact .site (.quiet (List.forall_mem_singleton.2 rfl)) rfl rfl
  | .ident name, code, h => by
    rw [term, readName_eq_nameCode] at h
    exact touches_nameCode (Or.inl rfl) rfl (fun _ => .parameter .nil) h
  | .index base keys, code, h => by
    obtain ⟨slot, rest, -, hrest, rfl⟩ := term_index_ok h
    exact (touches_keyCode hnodup hrest).entry base _ slot rfl

theorem touches_keyCode (hnodup : (c.declarations.map Declaration.name).Nodup) :
    ∀ {keys : List Term} {code : List Instruction}, keyCode c.scope locals keys = .ok code →
      Touches c.scope locals.names (Term.allSites keys) code
  | [], code, h => by
    rw [keyCode] at h
    cases h
    exact .quiet (List.forall_mem_nil _)
  | key :: rest, code, h => by
    obtain ⟨first, more, hfirst, hmore, rfl⟩ := keyCode_cons_ok h
    -- The two instructions of a key do not use the memory.
    have hrest := ((touches_keyCode hnodup hmore).cons (i := .hash256) rfl).cons
      (i := .binary .add) rfl
    exact (touches_term hnodup hfirst).behind (accepts_term hnodup key) hfirst hrest

end

section Straight

variable (hnodup : (c.declarations.map Declaration.name).Nodup)

include hnodup

/-- The operators that are worked into the code of operands do not use the memory. -/
theorem touches_weave {ts : List Term} {codes : List (List Instruction)} {operators : List Operator}
    (h : terms c.scope locals ts = .ok codes) (hlen : ts.length = operators.length)
    (pending : List Operator) :
    Touches c.scope locals.names (Term.allSites ts) (weave pending (operators.zip codes)) := by
  have hquiet : ∀ (ops : List Operator), ∀ i ∈ ops.map Instruction.binary, i.usesMemory = false := by
    intro ops i hi
    obtain ⟨op, -, rfl⟩ := List.mem_map.1 hi
    rfl
  induction ts generalizing codes operators pending with
  | nil =>
    rw [List.length_nil, eq_comm, List.length_eq_zero_iff] at hlen
    rw [hlen, List.zip_nil_left, weave]
    exact .quiet (hquiet _)
  | cons first rest ih =>
    obtain ⟨code, more, hfirst, hmore, rfl⟩ := terms_cons_ok h
    cases operators with
    | nil => cases hlen
    | cons op operators =>
      rw [List.zip_cons_cons, weave]
      rcases pending.span fun top => op.precedence ≤ top.precedence with ⟨due, later⟩
      dsimp only
      rw [List.append_assoc]
      -- The operators that are due come before the operand.
      refine .quiet_append ?_ (hquiet _)
      exact (touches_term hnodup hfirst).behind (accepts_term hnodup first) hfirst
        (ih hmore (Nat.succ.inj hlen) _)

/-- An expression goes to the cells of its operands, from left to right. The operators are worked in
where they are due, and use the stack only. -/
theorem touches_expression {e : Expression} {code : List Instruction}
    (h : expression c.scope locals e = .ok code) : Touches c.scope locals.names e.sites code := by
  obtain ⟨first, rest, firstCode, codes, hterms, hlen, hfirst, hcodes, rfl⟩ := expression_ok h
  refine .site ?_ rfl rfl
  rw [hterms]
  exact (touches_term hnodup hfirst).behind (accepts_term hnodup first) hfirst
    (touches_weave hnodup hcodes hlen [])

/-! ### Statements -/

/-- A declaration goes to the cells of its value first and to its own cell last. -/
theorem touches_localVariable {v : LocalVariable} {code : List Instruction}
    (h : localVariable c.scope locals v = .ok (code, after)) :
    Touches c.scope locals.names v.sites code := by
  obtain ⟨value, hvalue, rfl, -⟩ := localVariable_ok h
  refine (touches_expression hnodup hvalue).behind (accepts_expression hnodup v.value) hvalue ?_
  -- The number of the local is pushed, and it is the key.
  refine .single (.cell (Or.inr rfl) .nil) rfl ?_
  rw [Site.declare, ← names_number]
  exact Option.map_eq_some_iff.2 ⟨_, Numbering.lookup?_number locals v.name, rfl⟩

/-- A target goes to the cell of its name, or to those of the names in its keys. -/
theorem touches_store {target : Expression} {t : Term} {code : List Instruction}
    (h : store c.scope locals target t = .ok code) : Touches c.scope locals.names t.sites code := by
  cases t with
  | literal value => cases h
  | ident name =>
    rw [store, writeName_eq_nameCode] at h
    exact touches_nameCode (Or.inr rfl) rfl (fun _ => .cell (Or.inr rfl) .nil) h
  | index base keys =>
    obtain ⟨place, hplace, rfl⟩ := store_index_ok h
    obtain ⟨slot, rest, -, hrest, rfl⟩ := address_ok hplace
    exact (touches_keyCode hnodup hrest).entry base _ slot rfl

/-- An assignment goes to the cells of its value first. -/
theorem touches_assignment {a : Assignment} {code : List Instruction}
    (h : assignment c.scope locals a = .ok code) : Touches c.scope locals.names a.sites code := by
  obtain ⟨t, value, rest, ht, hvalue, hrest, rfl⟩ := assignment_ok h
  obtain ⟨hterms, -⟩ := singleTerm?_eq_some_iff.1 ht
  refine .site ?_ rfl rfl
  rw [hterms]
  refine (touches_expression hnodup hvalue).behind (accepts_expression hnodup a.value) hvalue ?_
  rw [Term.allSites, Term.allSites, List.append_nil]
  exact touches_store hnodup hrest

end Straight

mutual

/-- A statement goes to the cells of its parts, in the order of the code. By recursion on the tree,
together with blocks and second arms. -/
theorem touches_statement (hnodup : (c.declarations.map Declaration.name).Nodup) :
    ∀ {s : Statement} {position : Nat} {locals after : Numbering} {code : List Symbol},
      statement c.scope position locals s = .ok (code, after) →
      Touches c.scope locals.names s.sites (code.map (Symbol.settle length))
  | .returns value, position, locals, after, code, h => by
    obtain ⟨valueCode, hvalue, rfl, -⟩ := statement_returns_ok h
    rw [List.map_append, map_settle_plain]
    exact (touches_expression hnodup hvalue).jump length
  | .assign a, position, locals, after, code, h => by
    obtain ⟨assignCode, hassign, rfl, -⟩ := statement_assign_ok h
    rw [map_settle_plain]
    exact touches_assignment hnodup hassign
  | .declare v, position, locals, after, code, h => by
    obtain ⟨declareCode, hdeclare, rfl⟩ := statement_declare_ok h
    rw [map_settle_plain]
    exact touches_localVariable hnodup hdeclare
  | .branch condition thenBody elseBody, position, locals, after, code, h => by
    obtain ⟨test, thenCode, middle, elseCode, skip, htest, hthen, helse, rfl⟩ :=
      statement_branch_ok h
    rw [List.map_append, List.map_append, List.map_append, map_settle_plain, map_settle_plain,
      List.append_assoc, List.append_assoc]
    -- The jump over the second arm goes with that arm, which may be missing.
    refine ((touches_expression hnodup htest).test _).behind (accepts_expression hnodup condition)
      htest ?_
    exact (touches_block hnodup hthen).behind (accepts_block hnodup thenBody _ locals) hthen
      (touches_elseArm hnodup helse)
  | .loop start condition step body, position, locals, after, code, h => by
    obtain ⟨startCode, inner, test, bodyCode, stepCode, hstart, htest, hbody, hstep, rfl⟩ :=
      statement_loop_ok h
    rw [List.map_append, List.map_append, map_settle_plain, map_settle_plain, List.append_assoc,
      List.append_assoc startCode, List.append_assoc startCode]
    -- The parts are compiled in the order in which they stand: the step has the locals of the body.
    refine (touches_localVariable hnodup hstart).behind (accepts_localVariable hnodup start)
      hstart ?_
    refine ((touches_expression hnodup htest).test _).behind (accepts_expression hnodup condition)
      htest ?_
    exact (touches_block hnodup hbody).behind (accepts_block hnodup body _ inner) hbody
      ((touches_assignment hnodup hstep).jump _)

theorem touches_block (hnodup : (c.declarations.map Declaration.name).Nodup) :
    ∀ {body : List Statement} {position : Nat} {locals after : Numbering} {code : List Symbol},
      block c.scope position locals body = .ok (code, after) →
      Touches c.scope locals.names (Statement.allSites body) (code.map (Symbol.settle length))
  | [], position, locals, after, code, h => by
    obtain ⟨rfl, -⟩ := block_nil_ok h
    exact .quiet (List.forall_mem_nil _)
  | first :: rest, position, locals, after, code, h => by
    obtain ⟨firstCode, middle, restCode, hfirst, hrest, rfl⟩ := block_cons_ok h
    rw [List.map_append]
    exact (touches_statement hnodup hfirst).behind (accepts_statement hnodup first position locals)
      hfirst (touches_block hnodup hrest)

/-- The second arm of a branch, behind the jump over it. -/
theorem touches_elseArm (hnodup : (c.declarations.map Declaration.name).Nodup) :
    ∀ {elseBody : Option (List Statement)} {position : Nat} {locals after : Numbering}
      {code : List Symbol} {skip : List Instruction},
      elseArm c.scope position locals elseBody = .ok (code, skip, after) →
      Touches c.scope locals.names (Statement.armSites elseBody)
        (skip ++ code.map (Symbol.settle length))
  | none, position, locals, after, code, skip, h => by
    obtain ⟨rfl, rfl, -⟩ := elseArm_none_ok h
    exact .quiet (List.forall_mem_nil _)
  | some body, position, locals, after, code, skip, h => by
    obtain ⟨hbody, rfl⟩ := elseArm_some_ok h
    exact ((touches_block hnodup hbody).cons rfl).cons rfl

end

/-- The body of a function goes to the cells of its statements, in turn. -/
theorem touches_bodyFrom (hnodup : (c.declarations.map Declaration.name).Nodup)
    {statements : List Statement} {position : Nat} {locals : Numbering} {code : List Symbol}
    (h : bodyFrom c.scope position locals statements = .ok code) :
    Touches c.scope locals.names (Statement.allSites statements)
      (code.map (Symbol.settle length)) := by
  induction statements generalizing position locals code with
  | nil =>
    cases h
    exact .quiet (List.forall_mem_nil _)
  | cons first rest ih =>
    -- A last `return` has no jump, which would not use the memory anyway.
    by_cases hlast : ∃ value, first = .returns value ∧ rest = []
    · obtain ⟨value, rfl, rfl⟩ := hlast
      obtain ⟨valueCode, hvalue, rfl⟩ := bodyFrom_last_ok h
      rw [map_settle_plain, Statement.allSites, Statement.allSites, List.append_nil]
      exact touches_expression hnodup hvalue
    · obtain ⟨firstCode, middle, restCode, hfirst, hrest, rfl⟩ :=
        bodyFrom_cons_ok (fun value hvalue => hlast ⟨value, hvalue⟩) h
      rw [List.map_append]
      exact (touches_statement hnodup hfirst).behind
        (accepts_statement hnodup first position locals) hfirst (ih hrest)

/-- The code of a function goes to the cells of the variables of its body. -/
theorem touches_function (hnodup : (c.declarations.map Declaration.name).Nodup)
    {f : FunctionDeclaration} {code : FunctionCode} (h : function c.scope f = .ok code) :
    Touches c.scope [] f.sites code.body := by
  obtain ⟨-, -, hbody⟩ := function_ok h
  obtain ⟨symbols, hsymbols, hcode⟩ := body_ok hbody
  rw [hcode]
  exact touches_bodyFrom hnodup hsymbols

/-- A parameter has its key among the keys of the parameters. -/
theorem exists_mem_parameterWords {ps : List Parameter} {keys : List Word}
    (h : parameterWords ps = .ok keys) {p : Parameter} (hp : p ∈ ps) :
    ∃ key ∈ keys, Word.ofText p.name = .ok key := by
  induction ps generalizing keys with
  | nil => cases hp
  | cons first rest ih =>
    obtain ⟨key, more, hkey, hmore, rfl⟩ := parameterWords_cons_ok h
    rcases List.mem_cons.1 hp with rfl | hmem
    · exact ⟨key, List.mem_cons_self, hkey⟩
    · obtain ⟨other, hother, htext⟩ := ih hmore hmem
      exact ⟨other, List.mem_cons_of_mem _ hother, htext⟩

end Compile

/-! ### Names that are used

What stands in a site stands in the tree. For names that are used this is how they come to be names
that the scanner has read. -/

section Names

variable {name : String}

mutual

/-- A name that an operand uses stands in it, by recursion on the tree. -/
theorem Term.mem_names_of_uses : ∀ {t : Term}, .uses name ∈ t.sites → name ∈ t.names
  | .literal value, h => by
    cases List.mem_singleton.1 h
  | .ident other, h => by
    cases List.mem_singleton.1 h
    exact List.mem_cons_self
  | .index base keys, h => by
    rcases List.mem_cons.1 h with heq | hkeys
    · cases heq
    · exact List.mem_cons_of_mem _ (Term.mem_allNames_of_uses hkeys)

theorem Term.mem_allNames_of_uses : ∀ {ts : List Term},
    .uses name ∈ Term.allSites ts → name ∈ Term.allNames ts
  | [], h => absurd h List.not_mem_nil
  | _ :: _, h =>
    List.mem_append.2 ((List.mem_append.1 h).imp Term.mem_names_of_uses Term.mem_allNames_of_uses)

end

theorem Expression.mem_names_of_uses {e : Expression} (h : .uses name ∈ e.sites) :
    name ∈ e.names := by
  rcases List.mem_cons.1 h with heq | hterms
  · cases heq
  · exact Term.mem_allNames_of_uses hterms

theorem Assignment.mem_names_of_uses {a : Assignment} (h : .uses name ∈ a.sites) :
    name ∈ a.names := by
  rcases List.mem_cons.1 h with heq | hrest
  · cases heq
  · rcases List.mem_append.1 hrest with hvalue | htarget
    · exact List.mem_append_right _ (Expression.mem_names_of_uses hvalue)
    · exact List.mem_append_left _ (Term.mem_allNames_of_uses htarget)

theorem LocalVariable.mem_names_of_uses {v : LocalVariable} (h : .uses name ∈ v.sites) :
    name ∈ v.names := by
  rcases List.mem_append.1 h with hvalue | hdeclares
  · exact List.mem_cons_of_mem _ (Expression.mem_names_of_uses hvalue)
  · cases List.mem_singleton.1 hdeclares

mutual

/-- A name that a statement uses stands in it, by recursion on the tree. -/
theorem Statement.mem_names_of_uses : ∀ {s : Statement}, .uses name ∈ s.sites → name ∈ s.names
  | .returns value, h => Expression.mem_names_of_uses h
  | .assign a, h => Assignment.mem_names_of_uses h
  | .declare v, h => LocalVariable.mem_names_of_uses h
  | .branch condition thenBody elseBody, h => by
    simp only [Statement.sites, Statement.names, List.mem_append, or_assoc] at h ⊢
    exact h.imp Expression.mem_names_of_uses
      (Or.imp Statement.mem_allNames_of_uses Statement.mem_armNames_of_uses)
  | .loop start condition step body, h => by
    simp only [Statement.sites, Statement.names, List.mem_append, or_assoc] at h ⊢
    refine h.imp LocalVariable.mem_names_of_uses (Or.imp Expression.mem_names_of_uses fun h => ?_)
    exact h.symm.imp Assignment.mem_names_of_uses Statement.mem_allNames_of_uses

theorem Statement.mem_allNames_of_uses : ∀ {body : List Statement},
    .uses name ∈ Statement.allSites body → name ∈ Statement.allNames body
  | [], h => absurd h List.not_mem_nil
  | _ :: _, h =>
    List.mem_append.2
      ((List.mem_append.1 h).imp Statement.mem_names_of_uses Statement.mem_allNames_of_uses)

theorem Statement.mem_armNames_of_uses : ∀ {elseBody : Option (List Statement)},
    .uses name ∈ Statement.armSites elseBody → name ∈ Statement.armNames elseBody
  | none, h => absurd h List.not_mem_nil
  | some _, h => Statement.mem_allNames_of_uses h

end

end Names

/-! ### The variables of a function -/

/-- What is on one side of a relation between lists has something on the other. -/
theorem exists_of_mem_left {α β : Type} {R : α → β → Prop} {as : List α} {bs : List β} {a : α}
    (h : List.Forall₂ R as bs) (ha : a ∈ as) : ∃ b ∈ bs, R a b := by
  induction h with
  | nil => cases ha
  | cons hfirst _ ih =>
    rcases List.mem_cons.1 ha with rfl | hrest
    · exact ⟨_, List.mem_cons_self, hfirst⟩
    · obtain ⟨b, hb, hab⟩ := ih hrest
      exact ⟨b, List.mem_cons_of_mem _ hb, hab⟩

namespace FunctionDeclaration

variable {c : Contract} {f : FunctionDeclaration} {v v' : Variable} {code : FunctionCode}

/-- The variables of a function are those that its body touches, and its parameters. -/
theorem has_iff (hnodup : (c.declarations.map Declaration.name).Nodup) :
    f.Has c v
      ↔ v ∈ Site.touched c.scope [] f.sites ∨ ∃ p ∈ f.parameters, v = .named p.name := by
  rw [Site.mem_touched]
  constructor
  · intro h
    cases h with
    | local_ h =>
      obtain ⟨before, after, hsites⟩ := List.append_of_mem h
      exact Or.inl ⟨before, _, after, hsites, rfl⟩
    | parameter h => exact Or.inr ⟨_, h, rfl⟩
    | @free name h =>
      obtain ⟨⟨before, after, hsites, hdeclares⟩, hcell⟩ := h
      refine Or.inl ⟨before, _, after, hsites, ?_⟩
      rw [Site.touched?, if_neg (mt Site.mem_declareAll_nil.1 hdeclares),
        if_pos ((Contract.cell?_eq_none_iff hnodup).2 hcell)]
  · rintro (⟨before, site, after, hsites, hsite⟩ | ⟨p, hp, rfl⟩)
    · have hmem : site ∈ f.sites := hsites ▸ List.mem_append_right _ List.mem_cons_self
      cases site with
      | declares name =>
        cases hsite
        exact .local_ hmem
      | uses name =>
        rw [Site.touched?] at hsite
        -- What a name is that is used depends on what was declared before it.
        by_cases hname : name ∈ Site.declareAll [] before
        · rw [if_pos hname] at hsite
          cases hsite
          have hdeclares := Site.mem_declareAll_nil.1 hname
          exact .local_ (hsites ▸ List.mem_append_left _ hdeclares)
        · rw [if_neg hname] at hsite
          by_cases hcell : c.scope.cell? name = none
          · rw [if_pos hcell] at hsite
            cases hsite
            exact .free ⟨⟨before, after, hsites, mt Site.mem_declareAll_nil.2 hname⟩,
              (Contract.cell?_eq_none_iff hnodup).1 hcell⟩
          · rw [if_neg hcell] at hsite
            cases hsite
      | _ => cases hsite
    · exact .parameter hp

/-- A variable that is kept under its text has a name that stands in the function. -/
theorem Has.mem_names {name : String} (h : f.Has c (.named name)) : name ∈ f.names := by
  cases h with
  | parameter hp => exact List.mem_append_left _ (List.mem_map_of_mem hp)
  | free hfree =>
    obtain ⟨⟨before, after, hsites, -⟩, -⟩ := hfree
    refine List.mem_append_right _ (Statement.mem_allNames_of_uses ?_)
    show .uses name ∈ f.sites
    rw [hsites]
    exact List.mem_append_right _ List.mem_cons_self

/-- **Different variables have different keys.** -/
theorem Has.key?_inj (hnames : AreNames f.names) (hlocals : f.locals.length < Text.indexBound)
    (hv : f.Has c v) (hv' : f.Has c v') {key : Word} (h : v.key? f.locals = some key)
    (h' : v'.key? f.locals = some key) : v = v' := by
  -- The numbers of locals are below the bound that texts are above of.
  have hsmall : ∀ {name slot}, Numbering.lookup? ⟨f.locals⟩ name = some slot →
      slot < Text.indexBound := fun hslot => (Numbering.lt_of_lookup? hslot).trans hlocals
  have hwide : Text.indexBound < 2 ^ 256 := by decide
  cases v with
  | local_ name =>
    obtain ⟨slot, hslot, rfl⟩ := Option.map_eq_some_iff.1 h
    have hlt := hsmall hslot
    cases v' with
    | local_ other =>
      obtain ⟨slot', hslot', hsame⟩ := Option.map_eq_some_iff.1 h'
      have hlt' := hsmall hslot'
      -- Numbers that fit in a word are told apart by it.
      have heq : slot' = slot := Word.ofNat_inj (by omega) (by omega) hsame
      subst heq
      rw [Numbering.eq_of_lookup? hslot hslot']
    | named other =>
      exact absurd rfl (key_ne_ofNat (hnames other hv'.mem_names) (toOption_eq_some.1 h') hlt)
  | named name =>
    have hname := hnames name hv.mem_names
    have htext : Word.ofText name = .ok key := toOption_eq_some.1 h
    cases v' with
    | local_ other =>
      obtain ⟨slot, hslot, rfl⟩ := Option.map_eq_some_iff.1 h'
      exact absurd rfl (key_ne_ofNat hname htext (hsmall hslot))
    | named other =>
      rw [key_inj hname (hnames other hv'.mem_names) htext (toOption_eq_some.1 h')]

/-- The keys of a function's code, given those of its body. The body goes to the cells of its
variables in the order in which it uses and declares them. Every variable of the function has a key,
there is no key that belongs to none, and no two variables have the same. -/
structure CellsApart (c : Contract) (f : FunctionDeclaration) (code : FunctionCode)
    (keys : List Word) : Prop where
  body : MemoryKeys code.body keys
  inOrder : List.Forall₂ (fun v key => v.key? f.locals = some key)
    (Site.touched c.scope [] f.sites) keys
  mem_iff : ∀ key, key ∈ code.parameters ++ keys ↔ ∃ v, f.Has c v ∧ v.key? f.locals = some key
  exists_key : ∀ v, f.Has c v → ∃ key, v.key? f.locals = some key
  key?_inj : ∀ v v' key, f.Has c v → f.Has c v' → v.key? f.locals = some key →
    v'.key? f.locals = some key → v = v'

/-- The code of a function has these keys, if it is short enough. Every local is stored to somewhere
in the code, so there are fewer locals than instructions. -/
theorem exists_cellsApart (hnodup : (c.declarations.map Declaration.name).Nodup)
    (hnames : AreNames f.names) (h : Compile.function c.scope f = .ok code)
    (hsize : code.body.length < Text.indexBound) : ∃ keys, f.CellsApart c code keys := by
  obtain ⟨-, hparameters, -⟩ := Compile.function_ok h
  obtain ⟨keys, hkeys, hvariables⟩ := Compile.touches_function hnodup h
  -- The length of the code bounds the number of locals.
  have hlocals : f.locals.length < Text.indexBound := by
    have hle : f.locals.length ≤ _ := Site.length_declareAll_le c.scope
    rw [hvariables.length_eq, List.length_nil, Nat.zero_add] at hle
    exact (hle.trans hkeys.length_le).trans_lt hsize
  -- Each variable has a key in the body or among the parameters, and each of those keys a variable.
  have hfound : ∀ v, f.Has c v → ∃ key ∈ code.parameters ++ keys, v.key? f.locals = some key := by
    intro v hv
    rcases (has_iff hnodup).1 hv with htouched | ⟨p, hp, rfl⟩
    · obtain ⟨key, hmem, hkey⟩ := exists_of_mem_left hvariables htouched
      exact ⟨key, List.mem_append_right _ hmem, hkey⟩
    · obtain ⟨key, hmem, htext⟩ := Compile.exists_mem_parameterWords hparameters hp
      exact ⟨key, List.mem_append_left _ hmem, toOption_eq_some.2 htext⟩
  refine ⟨keys, hkeys, hvariables, fun key => ⟨fun hkey => ?_, ?_⟩, fun v hv => ?_,
    fun v v' key hv hv' => hv.key?_inj hnames hlocals hv'⟩
  · rcases List.mem_append.1 hkey with hparameter | hbody
    · obtain ⟨name, hname, htext⟩ := Compile.ofText_of_mem_parameterWords hparameters hparameter
      obtain ⟨p, hp, rfl⟩ := List.mem_map.1 hname
      exact ⟨_, .parameter hp, toOption_eq_some.2 htext⟩
    · obtain ⟨v, hv, hkey⟩ := exists_of_mem_left hvariables.flip hbody
      exact ⟨v, (has_iff hnodup).2 (Or.inl hv), hkey⟩
  · rintro ⟨v, hv, hkey⟩
    obtain ⟨other, hmem, hother⟩ := hfound v hv
    cases hkey.symm.trans hother
    exact hmem
  · obtain ⟨key, -, hkey⟩ := hfound v hv
    exact ⟨key, hkey⟩

end FunctionDeclaration

namespace Contract

variable {ω : Type} [Stores ω]

/-- **Parameters and locals never share a memory cell.** Let a contract be read from a source and
compiled to code of which every position has an index. The keys in the code of a function are those of
its variables, and different variables have different ones. Whatever the arguments, the limits and the
stores, a run of the code reads and writes under these keys only. Texts have words if they have at
most 32 bytes, and the text of such a word is the same but for NUL characters at its end. -/
theorem variables_never_share_a_cell {source : String} {tokens : List Located} {limit : Nat}
    {c : Contract} {p : Program} (hscan : Token.scan source = .ok tokens)
    (hparse : Contract.parse tokens limit = .ok c) (hcompile : c.compile = .ok p)
    (hsize : p.Addressable) {i : Nat} {f : FunctionDeclaration} (hf : c.functions[i]? = some f) :
    (∃ code keys, p.functions.get? i = some code ∧ f.CellsApart c code keys
      ∧ ∀ (limits : Limits) (address : Word) (arguments : List Word) (s : ω) f' s',
        Reaches limits address code.body { memory := Machine.bind code.parameters arguments } s
            f' s' →
          (∀ next key, code.body[f'.pc]? = some next → next.memoryKey? f'.stack = some key →
              key ∈ keys)
            ∧ MemoryWithin (code.parameters ++ keys) f'.memory)
      ∧ (∀ text, (∃ w, Word.ofText text = .ok w) ↔ text.utf8ByteSize ≤ 32)
      ∧ ∀ text w, Word.ofText text = .ok w → w.toText? = some (Text.withoutNul text) := by
  obtain ⟨hnodup, -⟩ := compile_ok hcompile
  obtain ⟨code, hget, hfunction⟩ := exists_code hcompile hf
  have hlength := hsize.body_lt hget
  have hnames := names_of_parse hscan hparse (List.mem_of_getElem? hf)
  obtain ⟨keys, hapart⟩ := FunctionDeclaration.exists_cellsApart hnodup hnames hfunction hlength
  refine ⟨⟨code, keys, hget, hapart, fun limits address arguments s f' s' hreach => ?_⟩,
    fun text => ?_, fun text w => Word.toText?_ofText⟩
  · -- The shape of the stack says which key is on top at a position.
    have hchecks := Compile.checks_function hfunction
    have hstart := inShape_start code.body (5 + f.need) (Machine.bind code.parameters arguments)
    have hshape := hstart.reaches hchecks hlength hreach
    -- A call begins with the arguments under the keys of the parameters.
    have hbind : MemoryWithin (code.parameters ++ keys) (Machine.bind code.parameters arguments) :=
      memoryWithin_bind (List.subset_append_left _ _) arguments
    exact ⟨fun next key hnext hkey => hapart.body.mem_of_inShape hshape hnext hkey,
      hbind.reaches hapart.body (List.subset_append_right _ _) hchecks hlength hstart hreach⟩
  · rw [← Compile.textWord_ok_iff]
    constructor
    · rintro ⟨w, hw⟩
      exact ⟨w, by rw [Compile.textWord, hw]; rfl⟩
    · rintro ⟨w, hw⟩
      exact ⟨w, Compile.textWord_ok hw⟩

/-- A function with a local that has the name of its parameter, and a name that means nothing. -/
def tabSource : String :=
  "contract Tab " ++ Text.braced ("var total: Int = 0 "
    ++ "func add(sum: Int) -> Int " ++ Text.braced ("var first = sum "
      ++ "var sum = first + rate "
      ++ "total = total + sum "
      ++ "return sum"))

/-- The local and the parameter of one name are in different cells, and so is the name that means
nothing. -/
theorem tab_keeps_local_and_parameter_apart :
    ∃ tokens c p f code keys a b d, Token.scan tabSource = .ok tokens
      ∧ Contract.parse tokens = .ok c ∧ c.compile = .ok p ∧ p.Addressable
      ∧ c.functions[0]? = some f ∧ p.functions.get? 0 = some code ∧ f.CellsApart c code keys
      ∧ (Variable.local_ "sum").key? f.locals = some a
      ∧ (Variable.named "sum").key? f.locals = some b
      ∧ (Variable.named "rate").key? f.locals = some d
      ∧ a ≠ b ∧ a ≠ d ∧ b ≠ d := by
  have hrun : ((Token.scan tabSource).toOption.any fun tokens =>
      (Contract.parse tokens).toOption.any fun c =>
        c.compile.toOption.any fun p =>
          decide p.Addressable &&
          c.functions[0]?.any fun f =>
            decide (.local_ "sum" ∈ Site.touched c.scope [] f.sites
              ∧ .named "sum" ∈ Site.touched c.scope [] f.sites
              ∧ .named "rate" ∈ Site.touched c.scope [] f.sites)) = true := by
    decide +kernel
  obtain ⟨tokens, hscan, hrun⟩ := exists_ok_of_any hrun
  obtain ⟨c, hparse, hrun⟩ := exists_ok_of_any hrun
  obtain ⟨p, hcompile, hrun⟩ := exists_ok_of_any hrun
  rw [Bool.and_eq_true, decide_eq_true_eq] at hrun
  obtain ⟨hsize, hrun⟩ := hrun
  obtain ⟨f, hf, hrun⟩ := (Option.any_eq_true _ _).1 hrun
  rw [decide_eq_true_eq] at hrun
  obtain ⟨hnodup, -⟩ := compile_ok hcompile
  -- The three names are found in the body by evaluation.
  have hhas : ∀ v, v ∈ Site.touched c.scope [] f.sites → f.Has c v :=
    fun v hv => (FunctionDeclaration.has_iff hnodup).2 (Or.inl hv)
  have hlocal := hhas _ hrun.1
  have hparameter := hhas _ hrun.2.1
  have hfree := hhas _ hrun.2.2
  obtain ⟨⟨code, keys, hget, hapart, -⟩, -⟩ :=
    variables_never_share_a_cell (ω := MemoryStores) hscan hparse hcompile hsize hf
  obtain ⟨a, ha⟩ := hapart.exists_key _ hlocal
  obtain ⟨b, hb⟩ := hapart.exists_key _ hparameter
  obtain ⟨d, hd⟩ := hapart.exists_key _ hfree
  refine ⟨tokens, c, p, f, code, keys, a, b, d, hscan, hparse, hcompile, hsize, hf, hget, hapart, ha,
    hb, hd, ?_, ?_, ?_⟩
  · rintro rfl
    cases hapart.key?_inj _ _ _ hlocal hparameter ha hb
  · rintro rfl
    cases hapart.key?_inj _ _ _ hlocal hfree ha hd
  · rintro rfl
    exact absurd (hapart.key?_inj _ _ _ hparameter hfree hb hd) (by decide)

end Contract

end Covenant
