import Covenant.Proofs.Compile.Generator
import Covenant.Proofs.Compile.Precedence

/-!
# Splitting at the loosest operator

An expression is read from the top by looking for the operator that is worked out last: the
rightmost of those on the loosest level. What stands before it is the left operand, what stands
behind it the right one, and both are read in the same way.

* `Operator.levels` lists the operators, the loosest first, and `Operator.level` is the place of an
  operator in that list.
* `cutAtLoosest` finds the operator, `Tree.split` and `Expression.splitTree?` are the tree that comes
  of it. `cutAtLoosest_eq_some_iff` says which operator is found.
* `Tree.split_of_grouped` says that a grouped tree is the split of its own operands and operators, so
  the tree that is built from the left, operator by operator, is the same tree.
* `code_is_split_tree_in_postfix` is the result about the code: it is the split tree in postfix order,
  both for the code of an expression on its own and for what the one-pass generator puts into its
  buffer.
-/

namespace Covenant

namespace Operator

/-- The operators by how tightly they bind, the loosest first. -/
def levels : List (List Operator) :=
  [[.or, .and],
   [.equal, .notEqual, .less, .greater, .lessEqual, .greaterEqual],
   [.add, .subtract],
   [.multiply, .divide, .modulo]]

/-- The number of the level an operator is on. -/
def level (op : Operator) : Nat :=
  levels.findIdx (·.contains op)

/-- The levels are the precedences. -/
theorem level_eq_precedence (op : Operator) : op.level = op.precedence := by
  cases op <;> decide

end Operator

/-- Operators with the operands behind them, cut at the rightmost operator of the loosest level: what
is before it, the operator with its operand, and what is behind. -/
def cutAtLoosest : List (Operator × Term) →
    Option (List (Operator × Term) × (Operator × Term) × List (Operator × Term))
  | [] => none
  | pair :: rest =>
    match cutAtLoosest rest with
    | none => some ([], pair, rest)
    | some (before, found, behind) =>
      if pair.1.level < found.1.level then some ([], pair, rest)
      else some (pair :: before, found, behind)

/-- There is a cut unless there are no operators. -/
theorem cutAtLoosest_eq_none_iff {pairs : List (Operator × Term)} :
    cutAtLoosest pairs = none ↔ pairs = [] := by
  cases pairs with
  | nil => simp [cutAtLoosest]
  | cons pair rest =>
    rw [cutAtLoosest]
    cases cutAtLoosest rest with
    | none => simp
    | some cut =>
      dsimp only
      split <;> simp

/-- The operator that the others are measured by is the loosest. -/
theorem level_le_of_mem_cut {before behind : List (Operator × Term)} {found pair : Operator × Term}
    (hbefore : ∀ pair ∈ before, found.1.level ≤ pair.1.level)
    (hbehind : ∀ pair ∈ behind, found.1.level < pair.1.level)
    (hpair : pair ∈ before ++ found :: behind) : found.1.level ≤ pair.1.level := by
  rw [List.mem_append, List.mem_cons] at hpair
  rcases hpair with hmem | rfl | hmem
  · exact hbefore pair hmem
  · exact Nat.le_refl _
  · exact Nat.le_of_lt (hbehind pair hmem)

/-- The cut takes nothing away, no operator is on a looser level than the one it is made at, and
those behind are all on tighter ones. -/
theorem cutAtLoosest_ok {pairs before behind : List (Operator × Term)} {found : Operator × Term}
    (h : cutAtLoosest pairs = some (before, found, behind)) :
    pairs = before ++ found :: behind
      ∧ (∀ pair ∈ before, found.1.level ≤ pair.1.level)
      ∧ ∀ pair ∈ behind, found.1.level < pair.1.level := by
  induction pairs generalizing before found behind with
  | nil => simp [cutAtLoosest] at h
  | cons pair rest ih =>
    rw [cutAtLoosest] at h
    cases hrest : cutAtLoosest rest with
    | none =>
      rw [hrest] at h
      have hnil := cutAtLoosest_eq_none_iff.1 hrest
      simp only [Option.some.injEq, Prod.mk.injEq] at h
      obtain ⟨rfl, rfl, rfl⟩ := h
      simp [hnil]
    | some cut =>
      obtain ⟨before', found', behind'⟩ := cut
      obtain ⟨hsplit, hbefore, hbehind⟩ := ih hrest
      rw [hrest] at h
      dsimp only at h
      split at h
      · next hlt =>
        -- The first operator is looser than the loosest of the others.
        simp only [Option.some.injEq, Prod.mk.injEq] at h
        obtain ⟨rfl, rfl, rfl⟩ := h
        refine ⟨rfl, by simp, ?_⟩
        intro other hother
        rw [hsplit] at hother
        exact Nat.lt_of_lt_of_le hlt (level_le_of_mem_cut hbefore hbehind hother)
      · -- The first operator is no looser, so it goes before the cut.
        next hge =>
        simp only [Option.some.injEq, Prod.mk.injEq] at h
        obtain ⟨rfl, rfl, rfl⟩ := h
        refine ⟨by rw [hsplit]; rfl, ?_, hbehind⟩
        intro other hother
        rcases List.mem_cons.1 hother with rfl | hmem
        · omega
        · exact hbefore other hmem

/-- There is one cut at the rightmost operator of the loosest level, and it is the one found. -/
theorem cutAtLoosest_eq_some_iff {pairs before behind : List (Operator × Term)}
    {found : Operator × Term} :
    cutAtLoosest pairs = some (before, found, behind) ↔
      pairs = before ++ found :: behind
        ∧ (∀ pair ∈ before, found.1.level ≤ pair.1.level)
        ∧ ∀ pair ∈ behind, found.1.level < pair.1.level := by
  refine ⟨cutAtLoosest_ok, ?_⟩
  rintro ⟨rfl, hbefore, hbehind⟩
  -- What stands before the cut is never looser, so putting it in front leaves the cut where it is.
  induction before with
  | nil =>
    rw [List.nil_append, cutAtLoosest]
    cases hrest : cutAtLoosest behind with
    | none => rfl
    | some cut =>
      obtain ⟨before', found', behind'⟩ := cut
      have hmem : found' ∈ behind := by
        rw [(cutAtLoosest_ok hrest).1]
        simp
      dsimp only
      rw [if_pos (hbehind found' hmem)]
  | cons pair rest ih =>
    have hrest := ih fun other hother => hbefore other (List.mem_cons_of_mem pair hother)
    have hpair := hbefore pair List.mem_cons_self
    rw [List.cons_append, cutAtLoosest, hrest]
    dsimp only
    rw [if_neg (by omega)]

/-- Both sides of a cut are shorter, so splitting comes to an end. -/
theorem length_of_cutAtLoosest {pairs before behind : List (Operator × Term)}
    {found : Operator × Term} (h : cutAtLoosest pairs = some (before, found, behind)) :
    pairs.length = before.length + behind.length + 1 := by
  rw [(cutAtLoosest_ok h).1, List.length_append, List.length_cons]
  omega

namespace Tree

/-- The tree of an operand and the operators and operands behind it: an operand alone is a leaf, and
otherwise the root is the rightmost operator of the loosest level. -/
def split (first : Term) (pairs : List (Operator × Term)) : Tree :=
  match h : cutAtLoosest pairs with
  | none => leaf first
  | some (before, (op, second), behind) =>
    have := length_of_cutAtLoosest h
    node op (split first before) (split second behind)
  termination_by pairs.length
  decreasing_by all_goals omega

theorem split_nil (first : Term) : split first [] = leaf first := by
  rw [split]
  rfl

/-- One step of splitting, with the cut given. -/
theorem split_cut {first second : Term} {op : Operator} {pairs before behind : List (Operator × Term)}
    (h : cutAtLoosest pairs = some (before, (op, second), behind)) :
    split first pairs = node op (split first before) (split second behind) := by
  rw [split]
  split
  · -- The cut is known, so the first case cannot be.
    next hnone => rw [hnone] at h; cases h
  · next before' op' second' behind' hsome =>
    rw [hsome] at h
    simp only [Option.some.injEq, Prod.mk.injEq] at h
    obtain ⟨rfl, ⟨rfl, rfl⟩, rfl⟩ := h
    rfl

end Tree

/-- The tree of an expression that has one operand more than operators, split from the top. -/
def Expression.splitTree? (e : Expression) : Option Tree :=
  match e.terms with
  | [] => none
  | first :: rest =>
    if rest.length = e.operators.length then some (Tree.split first (e.operators.zip rest))
    else none

namespace Tree

/-! ### A grouped tree is its own split -/

/-- The leftmost operand. -/
def first : Tree → Term
  | leaf x => x
  | node _ l _ => l.first

/-- The operators from left to right, with the operand behind each of them. -/
def pairs : Tree → List (Operator × Term)
  | leaf _ => []
  | node op l r => l.pairs ++ (op, r.first) :: r.pairs

/-- The pairs have the operators of the tree. -/
theorem map_fst_pairs (t : Tree) : t.pairs.map Prod.fst = t.operators := by
  induction t with
  | leaf x => rfl
  | node op l r ihl ihr => rw [pairs, List.map_append, List.map_cons, ihl, ihr, operators]

theorem fst_mem_operators {t : Tree} {pair : Operator × Term} (h : pair ∈ t.pairs) :
    pair.1 ∈ t.operators := by
  rw [← map_fst_pairs]
  exact List.mem_map_of_mem h

theorem first_extend (op : Operator) (x : Term) (t : Tree) : (t.extend op x).first = t.first := by
  cases t with
  | leaf y => rfl
  | node o l r =>
    rw [extend]
    split <;> rfl

/-- Extending a tree puts one more pair behind the others. -/
theorem pairs_extend (op : Operator) (x : Term) (t : Tree) :
    (t.extend op x).pairs = t.pairs ++ [(op, x)] := by
  induction t with
  | leaf y => rfl
  | node o l r _ ih =>
    rw [extend]
    split
    · rw [pairs, first_extend, ih, pairs, List.append_assoc, List.cons_append]
    · rfl

theorem first_extendAll (t : Tree) (more : List (Operator × Term)) :
    (t.extendAll more).first = t.first := by
  induction more generalizing t with
  | nil => rfl
  | cons pair rest ih => exact (ih (t.extend pair.1 pair.2)).trans (first_extend pair.1 pair.2 t)

/-- Extending a tree by several pairs puts them behind the others, in their order. -/
theorem pairs_extendAll (t : Tree) (more : List (Operator × Term)) :
    (t.extendAll more).pairs = t.pairs ++ more := by
  induction more generalizing t with
  | nil => exact (List.append_nil _).symm
  | cons pair rest ih =>
    show ((t.extend pair.1 pair.2).extendAll rest).pairs = _
    rw [ih, pairs_extend, List.append_assoc]
    rfl

/-- A tree that is grouped by precedence is the split of its operands and operators. -/
theorem split_of_grouped {t : Tree} (h : t.Grouped) : split t.first t.pairs = t := by
  induction t with
  | leaf x => exact split_nil x
  | node op l r ihl ihr =>
    obtain ⟨hleft, hright, hl, hr⟩ := h
    -- Grouping says of the root what the cut is looked for by.
    have hcut : cutAtLoosest (node op l r).pairs = some (l.pairs, (op, r.first), r.pairs) := by
      rw [cutAtLoosest_eq_some_iff]
      refine ⟨rfl, ?_, ?_⟩
      · intro pair hpair
        rw [Operator.level_eq_precedence, Operator.level_eq_precedence]
        exact hleft pair.1 (fst_mem_operators hpair)
      · intro pair hpair
        rw [Operator.level_eq_precedence, Operator.level_eq_precedence]
        exact hright pair.1 (fst_mem_operators hpair)
    rw [split_cut hcut, first, ihl hl, ihr hr]

/-- The tree built from the left is the tree split from the top. -/
theorem extendAll_eq_split (x : Term) (more : List (Operator × Term)) :
    (leaf x).extendAll more = split x more := by
  have hgrouped : ((leaf x).extendAll more).Grouped := grouped_extendAll (t := leaf x) trivial more
  have hsplit := split_of_grouped hgrouped
  rw [first_extendAll, pairs_extendAll] at hsplit
  exact hsplit.symm

end Tree

/-- Splitting from the top and building from the left give the same tree, or both give none. -/
theorem splitTree?_eq_tree? (e : Expression) : e.splitTree? = e.tree? := by
  unfold Expression.splitTree? Expression.tree?
  cases e.terms with
  | nil => rfl
  | cons first rest => dsimp only; rw [Tree.extendAll_eq_split]

namespace Compile

variable {scope : Scope} {locals : Numbering}

/-- Operands that compile one by one compile together. -/
theorem terms_of_forall_ok {leafCode : Term → List Instruction} {xs : List Term}
    (h : ∀ x ∈ xs, term scope locals x = .ok (leafCode x)) :
    terms scope locals xs = .ok (xs.map leafCode) := by
  induction xs with
  | nil => rfl
  | cons first rest ih =>
    have hfirst := h first List.mem_cons_self
    have hrest := ih fun x hx => h x (List.mem_cons_of_mem first hx)
    rw [terms, hfirst, hrest]
    rfl

/-- An expression that has one operand more than operators compiles when its operands do. -/
theorem expression_of_terms {e : Expression} {leafCode : Term → List Instruction}
    (hlength : e.terms.length = e.operators.length + 1)
    (h : ∀ x ∈ e.terms, term scope locals x = .ok (leafCode x)) :
    ∃ t, e.tree? = some t ∧ expression scope locals e = .ok (t.code leafCode) := by
  have hcodes := terms_of_forall_ok h
  unfold expression Expression.tree?
  rw [if_pos hlength, hcodes]
  cases hterms : e.terms with
  | nil => rw [hterms] at hlength; simp at hlength
  | cons first rest =>
    rw [hterms] at hlength
    have hrest : rest.length = e.operators.length := Nat.succ.inj hlength
    refine ⟨_, if_pos hrest, ?_⟩
    show Except.ok (leafCode first ++ weave [] (e.operators.zip (rest.map leafCode))) = _
    -- A single operand is an edge by itself, and the code woven behind it is that of the tree.
    rw [← weave_edge leafCode (t := .leaf first) trivial, List.zip_map_right]
    rfl

/-- The code of an expression is its split tree in postfix order. The one-pass generator appends this
code, and does nothing else, wherever it meets the expression. -/
theorem code_is_split_tree_in_postfix {e : Expression} {leafCode : Term → List Instruction}
    (hlength : e.terms.length = e.operators.length + 1)
    (hterms : ∀ x ∈ e.terms, term scope locals x = .ok (leafCode x)) :
    ∃ t, e.splitTree? = some t
      ∧ expression scope locals e = .ok (t.code leafCode)
      ∧ ∀ g : Generator, g.Settled scope → g.slots.memory = locals →
          Generator.expression scope.cells g e = .ok (g.emit (t.code leafCode)) := by
  obtain ⟨t, htree, hcode⟩ := expression_of_terms hlength hterms
  refine ⟨t, (splitTree?_eq_tree? e).trans htree, hcode, ?_⟩
  intro g hg hlocals
  subst hlocals
  rw [Generator.expression_eq hg, hcode]
  rfl

/-- `a - b * 2 - c < d || d == a && b` has `&&` at the top, with `||` on its left, and the second of
the two differences is above the first. -/
theorem code_of_mixed_levels :
    let e : Expression :=
      ⟨[.ident "a", .ident "b", .literal (.int 2), .ident "c", .ident "d", .ident "d",
        .ident "a", .ident "b"], [.subtract, .multiply, .subtract, .less, .or, .equal, .and]⟩
    let t : Tree :=
      .node .and
        (.node .or
          (.node .less
            (.node .subtract
              (.node .subtract (.leaf (.ident "a"))
                (.node .multiply (.leaf (.ident "b")) (.leaf (.literal (.int 2)))))
              (.leaf (.ident "c")))
            (.leaf (.ident "d")))
          (.node .equal (.leaf (.ident "d")) (.leaf (.ident "a"))))
        (.leaf (.ident "b"))
    let locals : Numbering := ⟨["a", "b", "c", "d"]⟩
    e.splitTree? = some t
      ∧ expression ⟨[], ⟨[]⟩⟩ locals e = .ok (t.code (termCode ⟨[], ⟨[]⟩⟩ locals)) := by
  intro e t locals
  have htree : e.splitTree? = some t := by
    rw [splitTree?_eq_tree?]
    rfl
  have hcodes : terms ⟨[], ⟨[]⟩⟩ locals e.terms
      = .ok (e.terms.map (termCode ⟨[], ⟨[]⟩⟩ locals)) := rfl
  obtain ⟨t', ht', hcode, -⟩ :=
    code_is_split_tree_in_postfix (e := e) rfl (terms_ok hcodes).2
  rw [htree, Option.some.injEq] at ht'
  subst ht'
  exact ⟨htree, hcode⟩

end Compile

end Covenant
