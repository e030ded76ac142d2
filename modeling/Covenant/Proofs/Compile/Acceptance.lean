import Covenant.Proofs.Compile.Correctness
import Covenant.Proofs.Compile.Generator
import Covenant.Proofs.Compile.WellFormed
import Covenant.Proofs.Contract.Soundness

/-!
# What compilation accepts

* `Accepts` compares a compilation with a list of sites: it succeeds if they are admitted. It is
  closed under chaining, so each construct is one lemma, up to `accepts_block` and `accepts_body`.
* `Contract.exists_compile_iff` is about a whole contract.
-/

namespace Covenant

/-! ### Compilations and sites -/

/-- A chain of two computations fails if the first does or the second does on its result. -/
theorem bind_eq_error {ε α β : Type} {x : Except ε α} {k : α → Except ε β} {e : ε} :
    (x >>= k) = .error e ↔ x = .error e ∨ ∃ a, x = .ok a ∧ k a = .error e := by
  cases x with
  | error e' => simp [Bind.bind, Except.bind]
  | ok a => simp [Bind.bind, Except.bind]

/-- Two chains that go on alike from every result of their first computation are the same. -/
theorem bind_congr_ok {ε α β : Type} {x : Except ε α} {k k' : α → Except ε β}
    (h : ∀ a, x = .ok a → k a = k' a) : (x >>= k) = x >>= k' := by
  cases x with
  | error e => rfl
  | ok a => exact h a rfl

namespace Compile

open Site

variable {c : Contract} {α β : Type}

/-- A compilation that begins with some locals succeeds if sites are admitted, and has the locals
that they declare then. Where an expression is malformed, one of them is not balanced. -/
structure Accepts (c : Contract) (locals : List String) (sites : List Site)
    (after : α → List String) (x : Except CompileError α) : Prop where
  ok_iff : (∃ a, x = .ok a) ↔ Admits c locals sites
  declared : ∀ a, x = .ok a → after a = declareAll locals sites
  malformed : ∀ terms operators, x = .error (.malformedExpression terms operators) →
    ∃ e, .expression e ∈ sites ∧ ¬ e.Balanced

namespace Accepts

variable {locals : List String} {first second : List Site} {mid : α → List String}
  {after : β → List String} {x : Except CompileError α}

/-- Compilations in turn accept sites in turn. The second begins with the locals that the first ends
with. -/
theorem bind {k : α → Except CompileError β} (hx : Accepts c locals first mid x)
    (hk : ∀ a, x = .ok a → Accepts c (mid a) second after (k a)) :
    Accepts c locals (first ++ second) after (x >>= k) where
  ok_iff := by
    -- The sites of the second are checked with the locals declared by the first.
    rw [admits_append]
    constructor
    · rintro ⟨b, hb⟩
      obtain ⟨a, ha, hb⟩ := bind_eq_ok.1 hb
      have hsecond := (hk a ha).ok_iff.1 ⟨b, hb⟩
      rw [hx.declared a ha] at hsecond
      exact ⟨hx.ok_iff.1 ⟨a, ha⟩, hsecond⟩
    · rintro ⟨hfirst, hsecond⟩
      obtain ⟨a, ha⟩ := hx.ok_iff.2 hfirst
      rw [← hx.declared a ha] at hsecond
      obtain ⟨b, hb⟩ := (hk a ha).ok_iff.2 hsecond
      exact ⟨b, bind_eq_ok.2 ⟨a, ha, hb⟩⟩
  declared := by
    intro b hb
    obtain ⟨a, ha, hb⟩ := bind_eq_ok.1 hb
    rw [(hk a ha).declared b hb, hx.declared a ha, declareAll, declareAll, declareAll,
      List.foldl_append]
  malformed := by
    intro terms operators herror
    rcases bind_eq_error.1 herror with herror | ⟨a, ha, herror⟩
    · obtain ⟨e, he, hbalanced⟩ := hx.malformed terms operators herror
      exact ⟨e, List.mem_append_left _ he, hbalanced⟩
    · obtain ⟨e, he, hbalanced⟩ := (hk a ha).malformed terms operators herror
      exact ⟨e, List.mem_append_right _ he, hbalanced⟩

/-- What has no sites is accepted, and declares nothing. -/
theorem pure {b : β} (h : after b = locals) : Accepts c locals [] after (pure b) where
  ok_iff := ⟨fun _ => trivial, fun _ => ⟨b, rfl⟩⟩
  declared := by
    intro b' hb
    cases hb
    exact h
  malformed := by
    intro terms operators herror
    cases herror

/-- What is made of the result of a compilation does not matter, as long as it has the same locals.
-/
theorem map {f : α → β} (hx : Accepts c locals first mid x) (hafter : ∀ a, after (f a) = mid a) :
    Accepts c locals first after (x >>= fun a => Pure.pure (f a)) := by
  have h := hx.bind (k := fun a => Pure.pure (f a)) fun a _ => Accepts.pure (hafter a)
  rwa [List.append_nil] at h

variable {site : Site}

/-- A check that fails exactly where a site is not admitted. -/
theorem check (hsite : site.declare locals = locals) (hafter : ∀ a, mid a = locals)
    (hok : (∃ a, x = .ok a) ↔ site.Admitted c locals)
    (herror : ∀ terms operators, x ≠ .error (.malformedExpression terms operators)) :
    Accepts c locals [site] mid x where
  ok_iff := hok.trans (and_iff_left trivial).symm
  declared := fun a _ => (hafter a).trans hsite.symm
  malformed := fun terms operators h => absurd h (herror terms operators)

/-- A check that was passed. -/
theorem passed (hsite : site.declare locals = locals) (hadmitted : site.Admitted c locals)
    (hx : Accepts c locals second mid x) : Accepts c locals (site :: second) mid x where
  ok_iff := by
    rw [Admits, hsite, hx.ok_iff]
    exact (and_iff_right hadmitted).symm
  declared := by
    intro a ha
    rw [hx.declared a ha, declareAll, declareAll, List.foldl_cons, hsite]
  malformed := by
    intro terms operators herror
    obtain ⟨e, he, hbalanced⟩ := hx.malformed terms operators herror
    exact ⟨e, List.mem_cons_of_mem _ he, hbalanced⟩

/-- A check that was not passed. -/
theorem refused (hrefused : ¬ site.Admitted c locals) (hfails : ∀ a, x ≠ .ok a)
    (hmalformed : ∀ terms operators, x = .error (.malformedExpression terms operators) →
      ∃ e, .expression e ∈ site :: second ∧ ¬ e.Balanced) :
    Accepts c locals (site :: second) mid x where
  ok_iff := ⟨fun ⟨a, ha⟩ => absurd ha (hfails a), fun h => absurd h.1 hrefused⟩
  declared := fun a ha => absurd ha (hfails a)
  malformed := hmalformed

/-- A check that ends compilation with an error of its own. -/
theorem error {e : CompileError} (hrefused : ¬ site.Admitted c locals)
    (he : ∀ terms operators, e ≠ .malformedExpression terms operators) :
    Accepts c locals (site :: second) mid (.error e) := by
  refine .refused hrefused (by rintro a ⟨⟩) ?_
  rintro terms operators ⟨⟩
  exact absurd rfl (he terms operators)

end Accepts

/-! ### Names and constants -/

/-- A constant has a word if it is safe. A safe integer is in the range of words in any case. -/
theorem literalWord_ok_iff {value : Literal} : (∃ w, literalWord value = .ok w) ↔ value.Safe := by
  cases value with
  | bool b => exact ⟨fun _ => trivial, fun _ => ⟨_, rfl⟩⟩
  | int n =>
    rw [literalWord, Word.ofSafeInt, Literal.Safe]
    by_cases hsafe : n.natAbs ≤ Word.maxSafeInt
    · -- The bound on safe integers is the smaller one.
      have hrange : -Int.pow 2 255 ≤ n ∧ n < Int.pow 2 256 := by
        have hmax : Word.maxSafeInt = 9007199254740991 := by decide
        have hlow : Int.pow 2 255 ≥ 9007199254740992 := by decide
        have hhigh : Int.pow 2 256 ≥ 9007199254740992 := by decide
        omega
      rw [if_pos hsafe, Word.ofInt, if_pos hrange]
      exact ⟨fun _ => hsafe, fun _ => ⟨_, rfl⟩⟩
    · rw [if_neg hsafe]
      exact iff_of_false (by rintro ⟨w, ⟨⟩⟩) hsafe

/-- An error of an encoder is not about an expression. -/
theorem encoding_ne_malformed {x : Except EncodingError α} (terms operators : Nat) :
    x.mapError CompileError.encoding ≠ .error (.malformedExpression terms operators) := by
  cases x with
  | error e => rintro ⟨⟩
  | ok a => rintro ⟨⟩

theorem literalWord_ne_malformed {value : Literal} (terms operators : Nat) :
    literalWord value ≠ .error (.malformedExpression terms operators) := by
  cases value with
  | int n => exact encoding_ne_malformed terms operators
  | bool b => rintro ⟨⟩

/-- A constant is accepted if it is safe. -/
theorem accepts_literal (value : Literal) (locals : List String) :
    Accepts c locals [.literal value] (fun _ => locals) (literalWord value) :=
  .check rfl (fun _ => rfl) literalWord_ok_iff literalWord_ne_malformed

/-- A name has a word if it is short enough. -/
theorem textWord_ok_iff {text : String} :
    (∃ w, textWord text = .ok w) ↔ text.utf8ByteSize ≤ 32 := by
  have hsize : (Bytes.ofText text).length = text.utf8ByteSize := rfl
  rw [textWord, Word.ofText]
  by_cases hshort : (Bytes.ofText text).length ≤ Word.size
  · rw [if_pos hshort]
    exact ⟨fun _ => hshort, fun _ => ⟨_, rfl⟩⟩
  · rw [if_neg hshort]
    exact iff_of_false (by rintro ⟨w, ⟨⟩⟩) hshort

end Compile

namespace Contract

variable {c : Contract} (hnodup : (c.declarations.map Declaration.name).Nodup)

include hnodup

/-- What a name is in the storage is what one declaration says, as no other has the name. -/
theorem cell?_eq_some_iff {name : String} {cell : Cell} :
    c.scope.cell? name = some cell ↔ ∃ d ∈ c.declarations, d.cell? = some (name, cell) := by
  rw [← List.mem_filterMap]
  constructor
  · intro h
    obtain ⟨before, after, hcells, -⟩ := List.lookup_eq_some_iff.1 h
    have hmem : (name, cell) ∈ c.scope.cells := by
      rw [hcells]
      exact List.mem_append_right _ List.mem_cons_self
    exact hmem
  · exact lookup_eq_some_of_mem (nodup_storageNames hnodup)

/-- A contract declares a variable if the name is a variable in its scope. -/
theorem declaresVariable_iff {name : String} :
    c.DeclaresVariable name ↔ c.scope.cell? name = some .variable_ := by
  rw [cell?_eq_some_iff hnodup]
  constructor
  · rintro ⟨d, hd, rfl⟩
    exact ⟨_, hd, rfl⟩
  · rintro ⟨d, hd, hcell⟩
    cases d with
    | variable_ d => cases hcell; exact ⟨d, hd, rfl⟩
    | mapping d => cases hcell
    | function f => cases hcell

/-- A mapping is declared with so many keys if the scope has it with so many. -/
theorem declaresMapping_iff {name : String} {keys : Nat} :
    c.DeclaresMapping name keys ↔ c.scope.cell? name = some (.mapping keys) := by
  rw [cell?_eq_some_iff hnodup]
  constructor
  · rintro ⟨d, hd, rfl, rfl⟩
    exact ⟨_, hd, rfl⟩
  · rintro ⟨d, hd, hcell⟩
    cases d with
    | variable_ d => cases hcell
    | mapping d => cases hcell; exact ⟨d, hd, rfl, rfl⟩
    | function f => cases hcell

/-- A name that the scope does not have is declared neither as a variable nor as a mapping. -/
theorem cell?_eq_none_iff {name : String} :
    c.scope.cell? name = none
      ↔ ¬ c.DeclaresVariable name ∧ ∀ keys, ¬ c.DeclaresMapping name keys := by
  simp only [declaresVariable_iff hnodup, declaresMapping_iff hnodup]
  cases c.scope.cell? name with
  | none => simp
  | some cell =>
    cases cell with
    | variable_ => simp
    | mapping depth => simp

end Contract

namespace Compile

open Site

variable {c : Contract} {locals : Numbering}

section Names

variable (hnodup : (c.declarations.map Declaration.name).Nodup)

include hnodup

/-- A name is accepted as a local, as a storage variable, or as a parameter if it is short enough.
It is refused as a mapping without keys. -/
theorem accepts_nameCode (inMemory inStorage : Instruction) (ofKey : Word → List Instruction)
    (name : String) :
    Accepts c locals.names [.uses name] (fun _ => locals.names)
      (nameCode inMemory inStorage ofKey c.scope locals name) := by
  unfold nameCode Scope.resolve
  cases hlocal : locals.lookup? name with
  | some slot =>
    have hmem : name ∈ locals.names := by
      rcases Decidable.em (name ∈ locals.names) with hmem | hmem
      · exact hmem
      · rw [Numbering.lookup?, List.idxOf?_eq_none_iff.2 hmem] at hlocal
        cases hlocal
    exact .passed rfl (Or.inl hmem) (.pure rfl)
  | none =>
    have habsent : name ∉ locals.names := List.idxOf?_eq_none_iff.1 hlocal
    cases hcell : c.scope.cell? name with
    | none =>
      dsimp only
      obtain ⟨hvariable, hmapping⟩ := (Contract.cell?_eq_none_iff hnodup).1 hcell
      -- The other ways to be admitted are out, so the length of the name decides.
      have hname : Site.Admitted c locals.names (.uses name) ↔ name.utf8ByteSize ≤ 32 :=
        ⟨fun h => (h.resolve_left habsent).resolve_left hvariable |>.2,
          fun h => Or.inr (Or.inr ⟨hmapping, h⟩)⟩
      exact (Accepts.check rfl (fun _ => rfl) (textWord_ok_iff.trans hname.symm)
        encoding_ne_malformed).map fun _ => rfl
    | some cell =>
      cases cell with
      | variable_ =>
        exact .passed rfl (Or.inr (Or.inl ((Contract.declaresVariable_iff hnodup).2 hcell)))
          (.pure rfl)
      | mapping depth =>
        -- A mapping without its keys is no value, and hides the parameters of its name.
        refine .error ?_ (by simp)
        rintro (hmem | hvariable | ⟨hmapping, -⟩)
        · exact habsent hmem
        · rw [Contract.declaresVariable_iff hnodup, hcell] at hvariable
          cases hvariable
        · exact hmapping depth ((Contract.declaresMapping_iff hnodup).2 hcell)

/-- An entry is accepted if its base is a mapping with as many keys. -/
theorem accepts_mappingSlot (base : String) (keys : Nat) (names : List String) :
    Accepts c names [.entry base keys] (fun _ => names) (mappingSlot c.scope base keys) := by
  have hentry : Site.Admitted c names (.entry base keys)
      ↔ c.scope.cell? base = some (.mapping keys) := Contract.declaresMapping_iff hnodup
  unfold mappingSlot
  cases hcell : c.scope.cell? base with
  | none =>
    refine .error ?_ (by simp)
    rw [hentry, hcell]
    rintro ⟨⟩
  | some cell =>
    cases cell with
    | variable_ =>
      refine .error ?_ (by simp)
      rw [hentry, hcell]
      rintro ⟨⟩
    | mapping depth =>
      -- The wrong number of keys is an error of its own.
      by_cases hkeys : keys = depth
      · subst hkeys
        dsimp only
        rw [if_pos rfl]
        exact .passed rfl (hentry.2 hcell) (.pure rfl)
      · dsimp only
        rw [if_neg hkeys]
        refine .error ?_ (by simp)
        rw [hentry, hcell]
        intro h
        cases h
        exact hkeys rfl

end Names

/-! ### Operands and expressions -/

mutual

/-- An operand is accepted with its sites, in the order in which they are compiled. By recursion on
the tree, together with the keys of an entry. -/
theorem accepts_term (hnodup : (c.declarations.map Declaration.name).Nodup) : ∀ t : Term,
    Accepts c locals.names t.sites (fun _ => locals.names) (term c.scope locals t)
  | .literal value => by
    rw [term, Term.sites]
    exact (accepts_literal value locals.names).map fun _ => rfl
  | .ident name => by
    rw [term, Term.sites]
    exact accepts_nameCode hnodup _ _ _ name
  | .index base keys => by
    rw [term, Term.sites]
    exact (accepts_mappingSlot hnodup base keys.length locals.names).bind fun slot _ =>
      (accepts_keyCode hnodup keys).map fun _ => rfl

theorem accepts_keyCode (hnodup : (c.declarations.map Declaration.name).Nodup) :
    ∀ keys : List Term, Accepts c locals.names (Term.allSites keys) (fun _ => locals.names)
      (keyCode c.scope locals keys)
  | [] => by
    rw [keyCode, Term.allSites]
    exact .pure rfl
  | key :: rest => by
    rw [keyCode, Term.allSites]
    exact (accepts_term hnodup key).bind fun code _ =>
      (accepts_keyCode hnodup rest).map fun _ => rfl

end

/-- The expressions that can be assigned to are those of one operand and no operator. -/
theorem singleTerm?_eq_some_iff {e : Expression} {t : Term} :
    e.singleTerm? = some t ↔ e.terms = [t] ∧ e.operators = [] := by
  obtain ⟨ts, ops⟩ := e
  constructor
  · intro h
    cases ts with
    | nil => cases h
    | cons first rest =>
      cases rest with
      | cons second rest => cases h
      | nil =>
        cases ops with
        | cons op ops => cases h
        | nil => cases h; exact ⟨rfl, rfl⟩
  · rintro ⟨rfl, rfl⟩
    rfl

section Expressions

variable (hnodup : (c.declarations.map Declaration.name).Nodup)

include hnodup

theorem accepts_terms (ts : List Term) :
    Accepts c locals.names (Term.allSites ts) (fun _ => locals.names)
      (terms c.scope locals ts) := by
  induction ts with
  | nil =>
    rw [terms, Term.allSites]
    exact .pure rfl
  | cons first rest ih =>
    rw [terms, Term.allSites]
    exact (accepts_term hnodup first).bind fun code _ => ih.map fun _ => rfl

/-- An expression is refused first if it is not balanced, and otherwise accepted with its operands.
-/
theorem accepts_expression (e : Expression) :
    Accepts c locals.names e.sites (fun _ => locals.names) (expression c.scope locals e) := by
  unfold expression
  by_cases hbalanced : e.terms.length = e.operators.length + 1
  · rw [if_pos hbalanced]
    refine .passed rfl hbalanced ?_
    rw [← List.append_nil (Term.allSites e.terms)]
    refine (accepts_terms hnodup e.terms).bind fun codes hcodes => ?_
    -- There is one operand more than there are operators, so there is a first one.
    cases hterms : e.terms with
    | nil =>
      rw [hterms] at hbalanced
      exact absurd hbalanced (Nat.succ_ne_zero _).symm
    | cons first rest =>
      rw [hterms] at hcodes
      obtain ⟨code, more, -, -, rfl⟩ := terms_cons_ok hcodes
      exact .pure rfl
  · rw [if_neg hbalanced]
    refine .refused hbalanced (by rintro code ⟨⟩) fun terms operators _ => ?_
    exact ⟨e, List.mem_cons_self, hbalanced⟩

/-- A declaration of a local is accepted with its value, and adds the local after it. -/
theorem accepts_localVariable (v : LocalVariable) :
    Accepts c locals.names v.sites (fun r => r.2.names) (localVariable c.scope locals v) := by
  unfold localVariable
  refine (accepts_expression hnodup v.value).bind fun value _ => ?_
  -- The declaration itself is always admitted.
  exact {
    ok_iff := ⟨fun _ => ⟨trivial, trivial⟩, fun _ => ⟨_, rfl⟩⟩
    declared := by
      intro r hr
      cases hr
      exact names_number locals v.name
    malformed := by
      intro terms operators herror
      cases herror }

/-- A target that is no constant is admitted with its operand. -/
theorem accepts_store (target : Expression) (t : Term) (hplace : ∀ value, t ≠ .literal value) :
    Accepts c locals.names t.sites (fun _ => locals.names) (store c.scope locals target t) := by
  cases t with
  | literal value => exact absurd rfl (hplace value)
  | ident name =>
    rw [store, Term.sites]
    exact accepts_nameCode hnodup _ _ _ name
  | index base keys =>
    rw [store, Term.sites, address]
    refine Accepts.map ?_ fun _ => rfl
    exact (accepts_mappingSlot hnodup base keys.length locals.names).bind fun slot _ =>
      (accepts_keyCode hnodup keys).map fun _ => rfl

/-- An assignment is accepted if its target is a place and both sides are accepted. -/
theorem accepts_assignment (a : Assignment) :
    Accepts c locals.names a.sites (fun _ => locals.names) (assignment c.scope locals a) := by
  unfold assignment
  cases htarget : a.target.singleTerm? with
  | none =>
    -- There is more than an operand on the left, or none.
    refine .error ?_ (by simp)
    rintro ⟨t, hterms, hoperators, -⟩
    rw [singleTerm?_eq_some_iff.2 ⟨hterms, hoperators⟩] at htarget
    cases htarget
  | some t =>
    obtain ⟨hterms, hoperators⟩ := singleTerm?_eq_some_iff.1 htarget
    by_cases hliteral : ∃ value, t = .literal value
    · -- The value is compiled before the constant on the left is refused.
      obtain ⟨constant, rfl⟩ := hliteral
      refine .refused ?_ (fun code hcode => ?_) fun terms operators herror => ?_
      · rintro ⟨t, ht, -, hplace⟩
        rw [hterms] at ht
        cases ht
        exact hplace constant rfl
      · obtain ⟨value, -, hrest⟩ := bind_eq_ok.1 hcode
        obtain ⟨rest, hstore, -⟩ := bind_eq_ok.1 hrest
        cases hstore
      · rcases bind_eq_error.1 herror with hvalue | ⟨value, -, hrest⟩
        · obtain ⟨e, he, hbalanced⟩ :=
            (accepts_expression hnodup a.value).malformed terms operators hvalue
          exact ⟨e, List.mem_cons_of_mem _ (List.mem_append_left _ he), hbalanced⟩
        · cases hrest
    · have hplace : ∀ value, t ≠ .literal value := fun value ht => hliteral ⟨value, ht⟩
      have hsites : Term.allSites a.target.terms = t.sites := by
        rw [hterms, Term.allSites, Term.allSites, List.append_nil]
      refine .passed rfl ⟨t, hterms, hoperators, hplace⟩ ?_
      rw [hsites]
      exact (accepts_expression hnodup a.value).bind fun value _ =>
        (accepts_store hnodup a.target t hplace).map fun _ => rfl

end Expressions

/-! ### Statements -/

mutual

/-- A statement is accepted with its sites. By recursion on the tree, together with blocks and
second arms. -/
theorem accepts_statement (hnodup : (c.declarations.map Declaration.name).Nodup) :
    ∀ (s : Statement) (position : Nat) (locals : Numbering),
      Accepts c locals.names s.sites (fun r => r.2.names) (statement c.scope position locals s)
  | .returns value, position, locals => by
    rw [statement, Statement.sites]
    exact (accepts_expression hnodup value).map fun _ => rfl
  | .assign a, position, locals => by
    rw [statement, Statement.sites]
    exact (accepts_assignment hnodup a).map fun _ => rfl
  | .declare v, position, locals => by
    rw [statement, Statement.sites]
    exact (accepts_localVariable hnodup v).map fun _ => rfl
  | .branch condition thenBody elseBody, position, locals => by
    rw [statement, Statement.sites]
    refine (accepts_expression hnodup condition).bind fun test _ => ?_
    refine (accepts_block hnodup thenBody _ locals).bind fun r _ => ?_
    exact (accepts_elseArm hnodup elseBody _ r.2).map fun _ => rfl
  | .loop start condition step body, position, locals => by
    rw [statement, Statement.sites]
    refine (accepts_localVariable hnodup start).bind fun r _ => ?_
    refine (accepts_expression hnodup condition).bind fun test _ => ?_
    refine (accepts_block hnodup body _ r.2).bind fun r' _ => ?_
    -- The step comes after the body and sees the locals declared there.
    exact (accepts_assignment hnodup step).map fun _ => rfl

/-- Statements are accepted in turn, each with the locals of those before it. -/
theorem accepts_block (hnodup : (c.declarations.map Declaration.name).Nodup) :
    ∀ (body : List Statement) (position : Nat) (locals : Numbering),
      Accepts c locals.names (Statement.allSites body) (fun r => r.2.names)
        (block c.scope position locals body)
  | [], position, locals => by
    rw [block, Statement.allSites]
    exact .pure rfl
  | first :: rest, position, locals => by
    rw [block, Statement.allSites]
    -- What the first statement declares is there for the others.
    refine (accepts_statement hnodup first position locals).bind fun r _ => ?_
    exact (accepts_block hnodup rest _ r.2).map fun _ => rfl

theorem accepts_elseArm (hnodup : (c.declarations.map Declaration.name).Nodup) :
    ∀ (elseBody : Option (List Statement)) (position : Nat) (locals : Numbering),
      Accepts c locals.names (Statement.armSites elseBody) (fun r => r.2.2.names)
        (elseArm c.scope position locals elseBody)
  | none, position, locals => by
    rw [elseArm, Statement.armSites]
    exact .pure rfl
  | some body, position, locals => by
    rw [elseArm, Statement.armSites]
    exact (accepts_block hnodup body _ locals).map fun _ => rfl

end

/-- The body of a function is accepted if its sites are admitted. -/
theorem accepts_bodyFrom (hnodup : (c.declarations.map Declaration.name).Nodup)
    (statements : List Statement) (position : Nat) (locals : Numbering) :
    Accepts c locals.names (Statement.allSites statements)
      (fun _ => declareAll locals.names (Statement.allSites statements))
      (bodyFrom c.scope position locals statements) := by
  induction statements generalizing position locals with
  | nil => exact .pure rfl
  | cons first rest ih =>
    -- A `return` that ends the body needs no jump to its end and is compiled apart.
    by_cases hlast : ∃ value, first = .returns value ∧ rest = []
    · obtain ⟨value, rfl, rfl⟩ := hlast
      rw [bodyFrom, Statement.allSites, Statement.allSites, List.append_nil, Statement.sites]
      have hvalue : Accepts c locals.names value.sites (fun _ => locals.names)
          (expression c.scope locals value >>= fun code => pure (plain code)) :=
        (accepts_expression hnodup value).map fun _ => rfl
      exact ⟨hvalue.ok_iff, fun _ _ => rfl, hvalue.malformed⟩
    · have hother : ∀ value, first = .returns value → rest = [] → False :=
        fun value hfirst hrest => hlast ⟨value, hfirst, hrest⟩
      rw [bodyFrom.eq_3 _ _ _ _ _ hother, Statement.allSites]
      have hfirst := accepts_statement hnodup first position locals
      refine hfirst.bind fun r hr => ?_
      have hafter : declareAll r.2.names (Statement.allSites rest)
          = declareAll locals.names (first.sites ++ Statement.allSites rest) := by
        rw [hfirst.declared r hr]
        exact List.foldl_append.symm
      rw [← hafter]
      exact (ih _ r.2).map fun _ => rfl

/-! ### Functions and contracts -/

/-- No name is found to be repeated if none is. -/
theorem firstRepeat?_eq_none_iff {seen names : List String} :
    firstRepeat? seen names = none ↔ names.Nodup ∧ ∀ name ∈ names, name ∉ seen := by
  refine ⟨nodup_of_firstRepeat?, ?_⟩
  induction names generalizing seen with
  | nil => exact fun _ => rfl
  | cons name rest ih =>
    rintro ⟨hnodup, hseen⟩
    obtain ⟨hname, hrest⟩ := List.nodup_cons.1 hnodup
    have hfresh : ¬ seen.contains name = true := by
      rw [List.contains_iff_mem]
      exact hseen name List.mem_cons_self
    rw [firstRepeat?, if_neg hfresh]
    refine ih ⟨hrest, fun other hother hmem => ?_⟩
    rcases List.mem_cons.1 hmem with rfl | hmem
    · exact hname hother
    · exact hseen other (List.mem_cons_of_mem _ hother) hmem

/-- Parameters pass their check if their names are different and none of them is declared in the
storage. -/
theorem checkParameters_ok_iff {scope : Scope} {function : String} {seen : List String}
    {ps : List Parameter} :
    checkParameters scope function seen ps = .ok ()
      ↔ ((ps.map Parameter.name).Nodup ∧ ∀ name ∈ ps.map Parameter.name, name ∉ seen)
        ∧ ∀ p ∈ ps, scope.cell? p.name = none := by
  constructor
  · intro h
    refine ⟨nodup_of_checkParameters h, ?_⟩
    induction ps generalizing seen with
    | nil => exact fun p hp => absurd hp List.not_mem_nil
    | cons p rest ih =>
      rw [checkParameters] at h
      -- A name is looked for among those before it first, and then in the scope.
      split at h
      · cases h
      · split at h
        · cases h
        · next hcell =>
          intro q hq
          rcases List.mem_cons.1 hq with rfl | hq
          · exact Option.not_isSome_iff_eq_none.1 hcell
          · exact ih h q hq
  · rintro ⟨⟨hnodup, hseen⟩, hcells⟩
    induction ps generalizing seen with
    | nil => rfl
    | cons p rest ih =>
      obtain ⟨hname, hrest⟩ := List.nodup_cons.1 hnodup
      have hfresh : ¬ seen.contains p.name = true := by
        rw [List.contains_iff_mem]
        exact hseen p.name List.mem_cons_self
      have hcell : ¬ (scope.cell? p.name).isSome = true := by
        rw [hcells p List.mem_cons_self]
        exact Bool.false_ne_true
      rw [checkParameters, if_neg hfresh, if_neg hcell]
      refine ih (fun q hq => hcells q (List.mem_cons_of_mem _ hq)) hrest
        fun other hother hmem => ?_
      rcases List.mem_cons.1 hmem with rfl | hmem
      · exact hname hother
      · exact hseen other (List.mem_cons_of_mem _ hother) hmem

/-- Parameters have words if their names are short enough. -/
theorem parameterWords_ok_iff {ps : List Parameter} :
    (∃ keys, parameterWords ps = .ok keys) ↔ ∀ p ∈ ps, p.name.utf8ByteSize ≤ 32 := by
  induction ps with
  | nil => exact ⟨fun _ p hp => absurd hp List.not_mem_nil, fun _ => ⟨[], rfl⟩⟩
  | cons p rest ih =>
    rw [List.forall_mem_cons, ← ih, ← textWord_ok_iff]
    simp only [parameterWords, bind_eq_ok, pure_eq_ok]
    constructor
    · rintro ⟨keys, key, hkey, more, hmore, -⟩
      exact ⟨⟨key, hkey⟩, more, hmore⟩
    · rintro ⟨⟨key, hkey⟩, more, hmore⟩
      exact ⟨_, key, hkey, more, hmore, rfl⟩

theorem checkParameters_ne_malformed {scope : Scope} {function : String} {seen : List String}
    {ps : List Parameter} {terms operators : Nat} :
    checkParameters scope function seen ps ≠ .error (.malformedExpression terms operators) := by
  induction ps generalizing seen with
  | nil => rintro ⟨⟩
  | cons p rest ih =>
    rw [checkParameters]
    split
    · rintro ⟨⟩
    · split
      · rintro ⟨⟩
      · exact ih

theorem parameterWords_ne_malformed {ps : List Parameter} {terms operators : Nat} :
    parameterWords ps ≠ .error (.malformedExpression terms operators) := by
  induction ps with
  | nil => rintro ⟨⟩
  | cons p rest ih =>
    intro h
    rcases bind_eq_error.1 h with hkey | ⟨key, -, h⟩
    · exact encoding_ne_malformed terms operators hkey
    rcases bind_eq_error.1 h with hmore | ⟨more, -, h⟩
    · exact ih hmore
    · cases h

/-- Initial values compile if they are safe. -/
theorem initialization_ok_iff {slots : Numbering} {declarations : List Declaration} :
    (∃ r, initialization slots declarations = .ok r)
      ↔ ∀ d, .variable_ d ∈ declarations → d.value.Safe := by
  induction declarations generalizing slots with
  | nil => exact ⟨fun _ d hd => absurd hd List.not_mem_nil, fun _ => ⟨_, rfl⟩⟩
  | cons declaration rest ih =>
    cases declaration with
    | variable_ v =>
      have hhead : (∀ d, Declaration.variable_ d ∈ .variable_ v :: rest → d.value.Safe)
          ↔ v.value.Safe ∧ ∀ d, Declaration.variable_ d ∈ rest → d.value.Safe := by
        simp
      rw [hhead, ← @ih (slots.number v.name).2, ← literalWord_ok_iff]
      simp only [initialization, bind_eq_ok, pure_eq_ok]
      constructor
      · rintro ⟨r, w, hw, r', hr', -⟩
        exact ⟨⟨w, hw⟩, r', hr'⟩
      · rintro ⟨⟨w, hw⟩, r', hr'⟩
        exact ⟨_, w, hw, r', hr', rfl⟩
    | mapping m =>
      rw [initialization, ih]
      simp
    | function f =>
      rw [initialization, ih]
      simp

section Functions

variable (hnodup : (c.declarations.map Declaration.name).Nodup)

include hnodup

/-- The jumps of a body are settled afterwards, and that never fails. -/
theorem accepts_body (statements : List Statement) :
    ((∃ code, body c.scope statements = .ok code) ↔ Admits c [] (Statement.allSites statements))
      ∧ ∀ terms operators,
        body c.scope statements = .error (.malformedExpression terms operators) →
        ∃ e, .expression e ∈ Statement.allSites statements ∧ ¬ e.Balanced := by
  have hfrom := accepts_bodyFrom hnodup statements 0 {}
  unfold body
  rw [← hfrom.ok_iff]
  -- Only the first of the two steps can fail.
  cases hsymbols : bodyFrom c.scope 0 {} statements with
  | error e =>
    refine ⟨iff_of_false (by rintro ⟨code, ⟨⟩⟩) (by rintro ⟨symbols, ⟨⟩⟩), ?_⟩
    rintro terms operators ⟨⟩
    exact hfrom.malformed terms operators hsymbols
  | ok symbols => exact ⟨⟨fun _ => ⟨_, rfl⟩, fun _ => ⟨_, rfl⟩⟩, by rintro terms operators ⟨⟩⟩

/-- A function compiles if it is well-formed. -/
theorem function_ok_iff {f : FunctionDeclaration} :
    (∃ code, function c.scope f = .ok code) ↔ f.WellFormed c := by
  have hcells : (∀ p ∈ f.parameters, c.scope.cell? p.name = none)
      ↔ ∀ p ∈ f.parameters,
        ¬ c.DeclaresVariable p.name ∧ ∀ keys, ¬ c.DeclaresMapping p.name keys :=
    forall₂_congr fun p _ => Contract.cell?_eq_none_iff hnodup
  -- The three parts do not depend on each other, so each has a condition of its own.
  have hcode : (∃ code, function c.scope f = .ok code)
      ↔ checkParameters c.scope f.name [] f.parameters = .ok ()
        ∧ (∃ keys, parameterWords f.parameters = .ok keys)
        ∧ ∃ code, body c.scope f.body = .ok code := by
    simp only [function, bind_eq_ok, pure_eq_ok]
    constructor
    · rintro ⟨code, _, hcheck, keys, hkeys, instructions, hbody, -⟩
      exact ⟨hcheck, ⟨keys, hkeys⟩, instructions, hbody⟩
    · rintro ⟨hcheck, ⟨keys, hkeys⟩, instructions, hbody⟩
      exact ⟨_, (), hcheck, keys, hkeys, instructions, hbody, rfl⟩
  rw [hcode, checkParameters_ok_iff, parameterWords_ok_iff, (accepts_body hnodup f.body).1, hcells,
    Site.admits_iff]
  constructor
  · rintro
      ⟨⟨⟨hparameters, -⟩, hvisible⟩, hshort, hliterals, hexpressions, htargets, hentries, hnames⟩
    exact ⟨hparameters, hshort, hvisible, hliterals, hexpressions, htargets, hentries, hnames⟩
  · intro h
    exact ⟨⟨⟨h.parameters, fun _ _ => List.not_mem_nil⟩, h.visibleParameters⟩, h.shortParameters,
      h.literals, h.expressions, h.targets, h.entries, h.names⟩

/-- Only an expression can be malformed, and then it is not balanced. -/
theorem function_malformed {f : FunctionDeclaration} {terms operators : Nat}
    (h : function c.scope f = .error (.malformedExpression terms operators)) :
    ∃ e, .expression e ∈ f.sites ∧ ¬ e.Balanced := by
  rcases bind_eq_error.1 h with hcheck | ⟨_, -, h⟩
  · exact absurd hcheck checkParameters_ne_malformed
  rcases bind_eq_error.1 h with hkeys | ⟨keys, -, h⟩
  · exact absurd hkeys parameterWords_ne_malformed
  rcases bind_eq_error.1 h with hbody | ⟨code, -, h⟩
  · exact (accepts_body hnodup f.body).2 terms operators hbody
  · cases h

end Functions

/-- Functions compile if each of them does. -/
theorem functions_ok_iff {scope : Scope} {fs : List FunctionDeclaration} :
    (∃ codes, functions scope fs = .ok codes) ↔ ∀ f ∈ fs, ∃ code, function scope f = .ok code := by
  induction fs with
  | nil => exact ⟨fun _ p hp => absurd hp List.not_mem_nil, fun _ => ⟨[], rfl⟩⟩
  | cons f rest ih =>
    rw [List.forall_mem_cons, ← ih]
    simp only [functions, bind_eq_ok, pure_eq_ok]
    constructor
    · rintro ⟨codes, code, hcode, more, hmore, -⟩
      exact ⟨⟨code, hcode⟩, more, hmore⟩
    · rintro ⟨⟨code, hcode⟩, more, hmore⟩
      exact ⟨_, code, hcode, more, hmore, rfl⟩

/-- An error of several functions is an error of one. -/
theorem functions_error {scope : Scope} {fs : List FunctionDeclaration} {e : CompileError}
    (h : functions scope fs = .error e) : ∃ f ∈ fs, function scope f = .error e := by
  induction fs with
  | nil => cases h
  | cons f rest ih =>
    rcases bind_eq_error.1 h with hf | ⟨code, -, h⟩
    · exact ⟨f, List.mem_cons_self, hf⟩
    rcases bind_eq_error.1 h with hrest | ⟨codes, -, h⟩
    · obtain ⟨f', hf', herror⟩ := ih hrest
      exact ⟨f', List.mem_cons_of_mem _ hf', herror⟩
    · cases h

theorem initialization_ne_malformed {slots : Numbering} {declarations : List Declaration}
    {terms operators : Nat} :
    initialization slots declarations ≠ .error (.malformedExpression terms operators) := by
  induction declarations generalizing slots with
  | nil => rintro ⟨⟩
  | cons declaration rest ih =>
    cases declaration with
    | variable_ v =>
      intro h
      rcases bind_eq_error.1 h with hvalue | ⟨w, -, h⟩
      · exact literalWord_ne_malformed terms operators hvalue
      rcases bind_eq_error.1 h with hrest | ⟨r, -, h⟩
      · exact ih hrest
      · cases h
    | mapping m => exact ih
    | function f => exact ih

end Compile

namespace Contract

variable {c : Contract}

/-- Compilation is the initialization and then the functions, in the scope of the contract. -/
theorem compile_eq (hnodup : (c.declarations.map Declaration.name).Nodup) :
    c.compile = Compile.initialization {} c.declarations >>= fun r =>
      Compile.functions c.scope c.functions >>= fun codes =>
        pure ⟨r.1, FunctionCode.table codes⟩ := by
  have hrepeat : Compile.firstRepeat? [] (c.declarations.map Declaration.name) = none :=
    Compile.firstRepeat?_eq_none_iff.2 ⟨hnodup, fun _ _ => List.not_mem_nil⟩
  unfold compile
  rw [hrepeat]
  refine bind_congr_ok fun r hinit => ?_
  obtain ⟨code, slots⟩ := r
  -- The slots that the initial values have taken are those of the scope.
  have hscope : (⟨c.declarations.filterMap Declaration.cell?, slots⟩ : Scope) = c.scope := by
    rw [Compile.initialization_slots (by simpa using hnodup) hinit]
    rfl
  dsimp only
  rw [hscope]

/-- A contract has a program if it is well-formed. -/
theorem exists_compile_iff (c : Contract) : (∃ p, c.compile = .ok p) ↔ c.WellFormed := by
  by_cases hnodup : (c.declarations.map Declaration.name).Nodup
  · -- The initial values and the functions are independent of each other.
    have hparts : (∃ p, c.compile = .ok p)
        ↔ (∃ r, Compile.initialization {} c.declarations = .ok r)
          ∧ ∃ codes, Compile.functions c.scope c.functions = .ok codes := by
      simp only [compile_eq hnodup, bind_eq_ok, pure_eq_ok]
      constructor
      · rintro ⟨p, r, hr, codes, hcodes, -⟩
        exact ⟨⟨r, hr⟩, codes, hcodes⟩
      · rintro ⟨⟨r, hr⟩, codes, hcodes⟩
        exact ⟨_, r, hr, codes, hcodes, rfl⟩
    rw [hparts, Compile.initialization_ok_iff, Compile.functions_ok_iff]
    constructor
    · rintro ⟨hvalues, hfunctions⟩
      exact ⟨hnodup, hvalues, fun f hf => (Compile.function_ok_iff hnodup).1 (hfunctions f hf)⟩
    · intro h
      exact ⟨h.initialValues, fun f hf => (Compile.function_ok_iff hnodup).2 (h.functions f hf)⟩
  · exact ⟨fun ⟨p, hp⟩ => absurd (compile_ok hp).1 hnodup, fun h => absurd h.declarations hnodup⟩

/-- Where compilation finds an expression malformed, some expression is not balanced. -/
theorem compile_malformed {terms operators : Nat}
    (h : c.compile = .error (.malformedExpression terms operators)) :
    ∃ f ∈ c.functions, ∃ e, .expression e ∈ f.sites ∧ ¬ e.Balanced := by
  by_cases hnodup : (c.declarations.map Declaration.name).Nodup
  · rw [compile_eq hnodup] at h
    rcases bind_eq_error.1 h with hinit | ⟨r, -, h⟩
    · exact absurd hinit Compile.initialization_ne_malformed
    rcases bind_eq_error.1 h with hfunctions | ⟨codes, -, h⟩
    · obtain ⟨f, hf, herror⟩ := Compile.functions_error hfunctions
      exact ⟨f, hf, Compile.function_malformed hnodup herror⟩
    · cases h
  · -- With a repeated name nothing is compiled, and the error is another.
    unfold compile at h
    cases hrepeat : Compile.firstRepeat? [] (c.declarations.map Declaration.name) with
    | none => exact absurd (Compile.nodup_of_firstRepeat? hrepeat).1 hnodup
    | some name =>
      rw [hrepeat] at h
      cases h

/-- **Compilation accepts the well-formed contracts and no others**, and so does the generator in
one pass, which never ends with an open jump target. In a contract that was read, no expression is
malformed. -/
theorem compile_succeeds_exactly_if_wellFormed (c : Contract) :
    ((∃ p, c.compile = .ok p) ↔ c.WellFormed)
      ∧ ((∃ r, c.generate = .ok r) ↔ c.WellFormed)
      ∧ (∀ pending, c.generate ≠ .error (.unpatchedJump pending))
      ∧ ∀ tokens limit, Contract.parse tokens limit = .ok c → ∀ terms operators,
        c.compile ≠ .error (.malformedExpression terms operators) := by
  have hfollows := c.generate_follows
  -- The pass fails with the same errors as compilation, and an open target is none of them.
  have hgenerate : ((∃ r, c.generate = .ok r) ↔ ∃ p, c.compile = .ok p)
      ∧ ∀ pending, c.generate ≠ .error (.unpatchedJump pending) := by
    generalize c.generate = generated, c.compile = compiled at hfollows
    cases hfollows with
    | error e => exact ⟨by simp, by simp⟩
    | ok h => exact ⟨by simp, by simp⟩
  refine ⟨c.exists_compile_iff, hgenerate.1.trans c.exists_compile_iff, hgenerate.2, ?_⟩
  intro tokens limit hparse terms operators hmalformed
  obtain ⟨n, -, hgrammar⟩ := exists_grammar_of_parse hparse
  obtain ⟨f, hf, e, he, hbalanced⟩ := compile_malformed hmalformed
  exact hbalanced (hgrammar.balanced hf e he)

end Contract

end Covenant
