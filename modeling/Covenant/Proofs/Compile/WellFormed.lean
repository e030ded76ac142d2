import Covenant.Proofs.Contract.Grammar
import Covenant.Proofs.Evaluation

/-!
# Well-formed contracts

The checks of compilation stand where the code is made, so whether a contract has a program is
spread over all of it. Here it is said on the tree alone. A function is a list of `Site`s, the
places where something is checked, in the order of compilation; a local counts from the site that
declares it on, whatever block that site is in. `Contract.WellFormed` says what is asked, clause by
clause.

* `Site.Admits` asks it site by site, with the locals declared so far; `Site.admits_iff` says that
  this is the same.
* What the grammar writes is balanced in all its expressions (`Grammar.Contract.balanced`).
-/

namespace Covenant

/-- A place in a function where compilation checks something or declares a local. -/
inductive Site where
  /-- A constant. -/
  | literal (value : Literal)
  /-- An expression whose value is used. -/
  | expression (e : Expression)
  /-- The left side of an assignment. -/
  | target (e : Expression)
  /-- An entry of a mapping, with so many keys. -/
  | entry (base : String) (keys : Nat)
  /-- A name that is read or assigned. -/
  | uses (name : String)
  /-- A local that counts from here on. -/
  | declares (name : String)

/-! ### The sites of a function -/

mutual

/-- The sites of an operand. -/
def Term.sites : Term → List Site
  | .literal value => [.literal value]
  | .ident name => [.uses name]
  | .index base keys => .entry base keys.length :: Term.allSites keys

/-- The sites of several operands. -/
def Term.allSites : List Term → List Site
  | [] => []
  | first :: rest => first.sites ++ Term.allSites rest

end

/-- The sites of an expression. -/
def Expression.sites (e : Expression) : List Site := .expression e :: Term.allSites e.terms

/-- The sites of an assignment: the value comes before the place it goes to. -/
def Assignment.sites (a : Assignment) : List Site :=
  .target a.target :: (a.value.sites ++ Term.allSites a.target.terms)

/-- The sites of a declaration of a local, which counts only after its value. -/
def LocalVariable.sites (v : LocalVariable) : List Site := v.value.sites ++ [.declares v.name]

mutual

/-- The sites of a statement. -/
def Statement.sites : Statement → List Site
  | .returns value => value.sites
  | .assign a => a.sites
  | .declare v => v.sites
  | .branch condition thenBody elseBody =>
    condition.sites ++ (Statement.allSites thenBody ++ Statement.armSites elseBody)
  | .loop start condition step body =>
    start.sites ++ (condition.sites ++ (Statement.allSites body ++ step.sites))

/-- The sites of several statements. -/
def Statement.allSites : List Statement → List Site
  | [] => []
  | first :: rest => first.sites ++ Statement.allSites rest

/-- The sites of the second arm of a branch. -/
def Statement.armSites : Option (List Statement) → List Site
  | none => []
  | some body => Statement.allSites body

end

/-- The sites of the body of a function. -/
def FunctionDeclaration.sites (f : FunctionDeclaration) : List Site := Statement.allSites f.body

/-! ### What is asked of a site -/

/-- A constant that compilation takes: an integer has a magnitude of at most 2^53 - 1. -/
def Literal.Safe : Literal → Prop
  | .int n => n.natAbs ≤ Nat.pow 2 53 - 1
  | .bool _ => True

/-- Operands and operators alternate, an operand first and last. -/
def Expression.Balanced (e : Expression) : Prop := e.terms.length = e.operators.length + 1

/-- A single operand that is no constant. -/
def Expression.IsPlace (e : Expression) : Prop :=
  ∃ target, e.terms = [target] ∧ e.operators = [] ∧ ∀ value, target ≠ .literal value

namespace Contract

/-- A storage variable has this name. -/
def DeclaresVariable (c : Contract) (name : String) : Prop :=
  ∃ d, .variable_ d ∈ c.declarations ∧ d.name = name

/-- A mapping has this name and so many keys. -/
def DeclaresMapping (c : Contract) (name : String) (keys : Nat) : Prop :=
  ∃ d, .mapping d ∈ c.declarations ∧ d.name = name ∧ d.keyTypes.length = keys

/-- A name that means something without a local: a storage variable, or what may be a parameter. -/
def Resolves (c : Contract) (name : String) : Prop :=
  c.DeclaresVariable name
    ∨ (∀ keys, ¬ c.DeclaresMapping name keys) ∧ name.utf8ByteSize ≤ 32

end Contract

/-- **A function that compilation accepts** in a contract. Every clause is about places anywhere in
the function; for a name that is used, what comes before its place in the order of compilation
counts too. -/
structure FunctionDeclaration.WellFormed (c : Contract) (f : FunctionDeclaration) : Prop where
  parameters : (f.parameters.map Parameter.name).Nodup
  shortParameters : ∀ p ∈ f.parameters, p.name.utf8ByteSize ≤ 32
  visibleParameters : ∀ p ∈ f.parameters,
    ¬ c.DeclaresVariable p.name ∧ ∀ keys, ¬ c.DeclaresMapping p.name keys
  literals : ∀ value, .literal value ∈ f.sites → value.Safe
  expressions : ∀ e, .expression e ∈ f.sites → e.Balanced
  targets : ∀ e, .target e ∈ f.sites → e.IsPlace
  entries : ∀ base keys, .entry base keys ∈ f.sites → c.DeclaresMapping base keys
  names : ∀ before name after, f.sites = before ++ .uses name :: after →
    .declares name ∈ before ∨ c.Resolves name

/-- **A contract that compilation accepts.** -/
structure Contract.WellFormed (c : Contract) : Prop where
  declarations : (c.declarations.map Declaration.name).Nodup
  initialValues : ∀ d, .variable_ d ∈ c.declarations → d.value.Safe
  functions : ∀ f ∈ c.functions, f.WellFormed c

namespace Site

/-- The locals after a site. -/
def declare (locals : List String) : Site → List String
  | .declares name => Evaluation.declare locals name
  | _ => locals

/-- What a site asks for, after the locals declared so far. -/
def Admitted (c : Contract) (locals : List String) : Site → Prop
  | .literal value => value.Safe
  | .expression e => e.Balanced
  | .target e => e.IsPlace
  | .entry base keys => c.DeclaresMapping base keys
  | .uses name => name ∈ locals ∨ c.Resolves name
  | .declares _ => True

/-- The locals after several sites. -/
def declareAll (locals : List String) (sites : List Site) : List String :=
  sites.foldl declare locals

/-- What all of several sites ask for. -/
def Admits (c : Contract) (locals : List String) : List Site → Prop
  | [] => True
  | site :: rest => site.Admitted c locals ∧ Admits c (site.declare locals) rest

variable {c : Contract} {locals : List String}

/-- Sites in turn are admitted if the first ones are, and the others are with the locals that those
declare. -/
theorem admits_append {first second : List Site} :
    Admits c locals (first ++ second)
      ↔ Admits c locals first ∧ Admits c (declareAll locals first) second := by
  induction first generalizing locals with
  | nil => exact (and_iff_right trivial).symm
  | cons site rest ih =>
    rw [List.cons_append, Admits, Admits, ih, and_assoc]
    rfl

/-- Sites are admitted if each of them is, with the locals declared before it. -/
theorem admits_iff_forall {sites : List Site} :
    Admits c locals sites
      ↔ ∀ before site after, sites = before ++ site :: after →
        site.Admitted c (declareAll locals before) := by
  induction sites generalizing locals with
  | nil => exact ⟨fun _ before site after h => by simp at h, fun _ => trivial⟩
  | cons first rest ih =>
    rw [Admits, ih]
    constructor
    · rintro ⟨hfirst, hrest⟩ before site after h
      -- The site is the first one, or it is among the others.
      cases before with
      | nil =>
        cases h
        exact hfirst
      | cons earlier before =>
        cases h
        exact hrest before site after rfl
    · intro h
      exact ⟨h [] first rest rfl, fun before site after hsites =>
        h (first :: before) site after (by rw [hsites]; rfl)⟩

/-- A local is there after some sites if it was there before or is declared by one of them. -/
theorem mem_declareAll {sites : List Site} {name : String} :
    name ∈ declareAll locals sites ↔ name ∈ locals ∨ .declares name ∈ sites := by
  induction sites generalizing locals with
  | nil => simp [declareAll]
  | cons site rest ih =>
    rw [declareAll, List.foldl_cons, ← declareAll, ih]
    cases site with
    | declares other =>
      -- A name that is declared again stays where it is.
      have hmem : name ∈ Evaluation.declare locals other ↔ name ∈ locals ∨ name = other := by
        rw [Evaluation.declare]
        split
        · next hin =>
          refine ⟨Or.inl, fun h => h.elim id ?_⟩
          rintro rfl
          exact hin
        · rw [List.mem_append, List.mem_singleton]
      rw [declare, hmem, List.mem_cons, Site.declares.injEq, or_assoc]
    | _ => simp [declare]

theorem mem_declareAll_nil {sites : List Site} {name : String} :
    name ∈ declareAll [] sites ↔ .declares name ∈ sites :=
  mem_declareAll.trans (or_iff_right List.not_mem_nil)

/-- What all sites ask for, one kind after the other. -/
theorem admits_iff {sites : List Site} :
    Admits c [] sites
      ↔ (∀ value, .literal value ∈ sites → value.Safe)
        ∧ (∀ e, .expression e ∈ sites → e.Balanced)
        ∧ (∀ e, .target e ∈ sites → e.IsPlace)
        ∧ (∀ base keys, .entry base keys ∈ sites → c.DeclaresMapping base keys)
        ∧ ∀ before name after, sites = before ++ .uses name :: after →
          .declares name ∈ before ∨ c.Resolves name := by
  rw [admits_iff_forall]
  constructor
  · intro h
    -- But for the names that are used, what a site asks for does not depend on the locals.
    have hmem : ∀ site ∈ sites, ∃ locals, site.Admitted c locals := by
      intro site hsite
      obtain ⟨before, after, hsites⟩ := List.append_of_mem hsite
      exact ⟨_, h before site after hsites⟩
    refine ⟨fun value hvalue => ?_, fun e he => ?_, fun e he => ?_, fun base keys hentry => ?_,
      fun before name after hsites => ?_⟩
    · obtain ⟨_, hsafe⟩ := hmem _ hvalue
      exact hsafe
    · obtain ⟨_, hbalanced⟩ := hmem _ he
      exact hbalanced
    · obtain ⟨_, hplace⟩ := hmem _ he
      exact hplace
    · obtain ⟨_, hmapping⟩ := hmem _ hentry
      exact hmapping
    · rw [← mem_declareAll_nil]
      exact h before _ after hsites
  · rintro ⟨hliterals, hexpressions, htargets, hentries, hnames⟩ before site after hsites
    have hmem : site ∈ sites := hsites ▸ List.mem_append_right _ List.mem_cons_self
    cases site with
    | literal value => exact hliterals value hmem
    | expression e => exact hexpressions e hmem
    | target e => exact htargets e hmem
    | entry base keys => exact hentries base keys hmem
    | uses name =>
      have hname := hnames before name after hsites
      rwa [← mem_declareAll_nil] at hname
    | declares name => trivial

end Site

/-! ### Contracts that the grammar writes -/

/-- Every expression among some sites is balanced. -/
def Site.Balanced (sites : List Site) : Prop := ∀ e, .expression e ∈ sites → e.Balanced

namespace Site

theorem balanced_nil : Balanced [] := fun _ h => absurd h List.not_mem_nil

theorem balanced_cons {site : Site} {rest : List Site} :
    Balanced (site :: rest) ↔ (∀ e, .expression e = site → e.Balanced) ∧ Balanced rest := by
  simp only [Balanced, List.mem_cons, or_imp, forall_and]

/-- Sites in turn are balanced if both lists are. -/
theorem balanced_append {first second : List Site} :
    Balanced (first ++ second) ↔ Balanced first ∧ Balanced second := by
  simp only [Balanced, List.mem_append, or_imp, forall_and]

end Site

mutual

/-- There are no expressions among the sites of an operand, so they are balanced. -/
theorem Term.balanced_sites (t : Term) : Site.Balanced t.sites := by
  cases t with
  | literal value => exact Site.balanced_cons.2 ⟨by simp, Site.balanced_nil⟩
  | ident name => exact Site.balanced_cons.2 ⟨by simp, Site.balanced_nil⟩
  | index base keys => exact Site.balanced_cons.2 ⟨by simp, Term.balanced_allSites keys⟩

theorem Term.balanced_allSites (ts : List Term) : Site.Balanced (Term.allSites ts) := by
  cases ts with
  | nil => exact Site.balanced_nil
  | cons first rest =>
    exact Site.balanced_append.2 ⟨Term.balanced_sites first, Term.balanced_allSites rest⟩

end

namespace Grammar

variable {separated : Separation} {n : Nat} {ts : List Token}

/-- An expression that is written has one operand first and an operator before each other. -/
theorem Expression.balanced {e : Covenant.Expression} (h : Expression ts e) :
    Site.Balanced e.sites := by
  obtain ⟨hfirst, hrest⟩ := h
  refine Site.balanced_cons.2 ⟨?_, Term.balanced_allSites _⟩
  rintro _ ⟨⟩
  simp [Covenant.Expression.Balanced]

theorem Assignment.balanced {a : Covenant.Assignment} (h : Assignment ts a) :
    Site.Balanced a.sites := by
  obtain ⟨htarget, hvalue⟩ := h
  exact Site.balanced_cons.2
    ⟨by simp, Site.balanced_append.2 ⟨hvalue.balanced, Term.balanced_allSites _⟩⟩

theorem LocalVariable.balanced {v : Covenant.LocalVariable} (h : LocalVariable ts v) :
    Site.Balanced v.sites := by
  obtain ⟨hname, htype, hvalue⟩ := h
  exact Site.balanced_append.2
    ⟨hvalue.balanced, Site.balanced_cons.2 ⟨by simp, Site.balanced_nil⟩⟩

mutual

/-- Statements, branches and blocks are balanced, by recursion on the derivation. -/
theorem Statement.balanced {n : Nat} {ts : List Token} {s : Covenant.Statement} :
    Statement separated n ts s → Site.Balanced s.sites
  | .returns hvalue => hvalue.balanced
  | .assign ha => ha.balanced
  | .declare hv => hv.balanced
  | .branch hbranch => Branch.balanced hbranch
  | .loop hstart hcondition hstep hbody => by
    simp only [Covenant.Statement.sites, Site.balanced_append]
    exact ⟨hstart.balanced, hcondition.balanced, Block.balanced hbody, hstep.balanced⟩

theorem Branch.balanced {n : Nat} {ts : List Token} {s : Covenant.Statement} :
    Branch separated n ts s → Site.Balanced s.sites
  | .single hcondition hbody => by
    simp only [Covenant.Statement.sites, Covenant.Statement.armSites, Site.balanced_append]
    exact ⟨hcondition.balanced, Block.balanced hbody, Site.balanced_nil⟩
  | .double hcondition hbody helse => by
    simp only [Covenant.Statement.sites, Covenant.Statement.armSites, Site.balanced_append]
    exact ⟨hcondition.balanced, Block.balanced hbody, Block.balanced helse⟩
  | .chained hcondition hbody hnext => by
    simp only [Covenant.Statement.sites, Covenant.Statement.armSites,
      Covenant.Statement.allSites, Site.balanced_append]
    exact ⟨hcondition.balanced, Block.balanced hbody, Branch.balanced hnext, Site.balanced_nil⟩

theorem Block.balanced {n : Nat} {ts : List Token} {body : List Covenant.Statement} :
    Block separated n ts body → Site.Balanced (Covenant.Statement.allSites body)
  | .mk hbody => Statements.balanced hbody

theorem Statements.balanced {n : Nat} {ts : List Token} {body : List Covenant.Statement} :
    Statements separated n ts body → Site.Balanced (Covenant.Statement.allSites body)
  | .nil => Site.balanced_nil
  | .cons hfirst _ hrest => by
    rw [Covenant.Statement.allSites, Site.balanced_append]
    exact ⟨Statement.balanced hfirst, Statements.balanced hrest⟩

end

/-- **In a contract that the grammar writes, operands and operators alternate** everywhere. -/
theorem Contract.balanced {c : Covenant.Contract} (h : Contract separated n ts c)
    {f : FunctionDeclaration} (hf : f ∈ c.functions) : Site.Balanced f.sites := by
  obtain ⟨_, _, hfunction, -⟩ := h.exists_function hf
  cases hfunction with
  | function _ _ _ hbody => exact hbody.balanced

end Grammar

end Covenant
