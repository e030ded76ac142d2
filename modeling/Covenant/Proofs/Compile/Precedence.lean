import Covenant.Proofs.Compile.Layout
import Mathlib.Data.List.TakeDrop
import Mathlib.Data.List.TakeWhile

/-!
# Precedence

An expression is kept flat, as operands and the operators between them. Its tree groups them: an
operator binds its operands the tighter the higher its precedence, and of two with one precedence the
left one comes first. The tree is built from the left, one operator and operand at a time: the
operator goes down the right edge of the tree past those that bind less tightly, and takes what it
finds there for its left operand.

* `Expression.tree?` is the tree of an expression. It has the operands of the expression, from left to
  right (`terms_of_tree?`), and is grouped by precedence, to the left (`grouped_of_tree?`).
* `Tree.code` is the code of a tree in postfix order.
* `expression_tree` says that the code of an expression is the code of its tree. The operators that
  `Compile.weave` has put off are those on the right edge of the tree (`Tree.edge`).
-/

namespace Covenant

/-- An expression with its operands grouped. -/
inductive Tree where
  | leaf (term : Term)
  | node (op : Operator) (left right : Tree)

namespace Tree

/-- The operands from left to right. -/
def terms : Tree → List Term
  | leaf x => [x]
  | node _ l r => l.terms ++ r.terms

/-- The operators from left to right. -/
def operators : Tree → List Operator
  | leaf _ => []
  | node op l r => l.operators ++ op :: r.operators

/-- Every operator binds at most as tightly as those of its left operand, and less tightly than those
of its right operand. -/
def Grouped : Tree → Prop
  | leaf _ => True
  | node op l r =>
    (∀ o ∈ l.operators, op.precedence ≤ o.precedence)
      ∧ (∀ o ∈ r.operators, op.precedence < o.precedence) ∧ l.Grouped ∧ r.Grouped

/-- The tree with one more operator and operand at its right end. -/
def extend (op : Operator) (x : Term) : Tree → Tree
  | leaf y => node op (leaf y) (leaf x)
  | node o l r =>
    if o.precedence < op.precedence then node o l (extend op x r)
    else node op (node o l r) (leaf x)

/-- The tree with several more operators and operands at its right end. -/
def extendAll (t : Tree) (pairs : List (Operator × Term)) : Tree :=
  pairs.foldl (fun t pair => t.extend pair.1 pair.2) t

end Tree

/-- The tree of an expression that has one operand more than operators. -/
def Expression.tree? (e : Expression) : Option Tree :=
  match e.terms with
  | [] => none
  | first :: rest =>
    if rest.length = e.operators.length then
      some ((Tree.leaf first).extendAll (e.operators.zip rest))
    else none

namespace Tree

/-! ### What a tree says about its expression -/

/-- The new operand comes last. -/
theorem terms_extend (op : Operator) (x : Term) (t : Tree) :
    (t.extend op x).terms = t.terms ++ [x] := by
  induction t with
  | leaf y => rfl
  | node o l r _ ih =>
    rw [extend]
    split
    · rw [terms, ih, terms, List.append_assoc]
    · rfl

/-- The new operator comes last. -/
theorem operators_extend (op : Operator) (x : Term) (t : Tree) :
    (t.extend op x).operators = t.operators ++ [op] := by
  induction t with
  | leaf y => rfl
  | node o l r _ ih =>
    rw [extend]
    split
    · rw [operators, ih, operators, List.append_assoc, List.cons_append]
    · rfl

/-- A grouped tree stays grouped at its right end. -/
theorem grouped_extend (op : Operator) (x : Term) {t : Tree} (h : t.Grouped) :
    (t.extend op x).Grouped := by
  induction t with
  | leaf y => simp [extend, Grouped, operators]
  | node o l r _ ih =>
    obtain ⟨hleft, hright, hl, hr⟩ := h
    rw [extend]
    split
    · -- The operator goes down into the right operand, where it binds more tightly than the root.
      next hlt =>
      refine ⟨hleft, ?_, hl, ih hr⟩
      intro o' ho'
      rw [operators_extend, List.mem_append, List.mem_singleton] at ho'
      rcases ho' with hmem | rfl
      · exact hright o' hmem
      · exact hlt
    · next hge =>
      refine ⟨?_, by simp [operators], ⟨hleft, hright, hl, hr⟩, trivial⟩
      -- What stands left of the new operator is bounded through the root it replaces.
      intro o' ho'
      rw [operators, List.mem_append, List.mem_cons] at ho'
      rcases ho' with hmem | rfl | hmem
      · have := hleft o' hmem; omega
      · omega
      · have := hright o' hmem; omega

/-- Operands are added in their order. -/
theorem terms_extendAll (t : Tree) (pairs : List (Operator × Term)) :
    (t.extendAll pairs).terms = t.terms ++ pairs.map Prod.snd := by
  induction pairs generalizing t with
  | nil => simp [extendAll]
  | cons pair rest ih =>
    show ((t.extend pair.1 pair.2).extendAll rest).terms = _
    rw [ih, terms_extend]
    simp

/-- Building from the left keeps a tree grouped. -/
theorem grouped_extendAll {t : Tree} (h : t.Grouped) (pairs : List (Operator × Term)) :
    (t.extendAll pairs).Grouped := by
  induction pairs generalizing t with
  | nil => exact h
  | cons pair rest ih => exact ih (grouped_extend pair.1 pair.2 h)

end Tree

section Expression

variable {e : Expression} {t : Tree}

/-- An expression has a tree if there is an operand first and one behind each operator. -/
theorem tree?_eq_some (h : e.tree? = some t) :
    ∃ first rest, e.terms = first :: rest ∧ rest.length = e.operators.length
      ∧ t = (Tree.leaf first).extendAll (e.operators.zip rest) := by
  unfold Expression.tree? at h
  split at h
  · cases h
  · next first rest hterms =>
    split at h
    · next hlen => exact ⟨first, rest, hterms, hlen, (Option.some.inj h).symm⟩
    · cases h

/-- The operands of an expression's tree are those of the expression. -/
theorem terms_of_tree? (h : e.tree? = some t) : t.terms = e.terms := by
  obtain ⟨first, rest, hterms, hlen, rfl⟩ := tree?_eq_some h
  rw [Tree.terms_extendAll, List.map_snd_zip (by omega), hterms]
  rfl

/-- The tree of an expression is grouped. -/
theorem grouped_of_tree? (h : e.tree? = some t) : t.Grouped := by
  obtain ⟨first, rest, hterms, hlen, rfl⟩ := tree?_eq_some h
  exact Tree.grouped_extendAll (t := .leaf first) trivial _

end Expression

namespace Tree

/-! ### Code in postfix order -/

/-- The code of a tree: that of the left operand, that of the right operand, the operator. -/
def code (leafCode : Term → List Instruction) : Tree → List Instruction
  | leaf x => leafCode x
  | node op l r => l.code leafCode ++ r.code leafCode ++ [.binary op]

theorem add_length_node (pc : Nat) (g : Term → List Instruction) (op : Operator) (l r : Tree) :
    pc + ((node op l r).code g).length = pc + (l.code g).length + (r.code g).length + 1 := by
  simp only [code, List.length_append, List.length_singleton]
  omega

/-- The operators on the right edge of a tree, the deepest first. -/
def edge : Tree → List Operator
  | leaf _ => []
  | node op _ r => r.edge ++ [op]

/-- The code of a tree without the operators on its right edge. -/
def inner (leafCode : Term → List Instruction) : Tree → List Instruction
  | leaf x => leafCode x
  | node _ l r => l.code leafCode ++ r.inner leafCode

variable (leafCode : Term → List Instruction)

/-- The code of a tree ends with the operators on its right edge. -/
theorem inner_append_edge (t : Tree) :
    t.inner leafCode ++ t.edge.map .binary = t.code leafCode := by
  induction t with
  | leaf x => simp [inner, edge, code]
  | node op l r _ ih => simp [inner, edge, code, ← ih, List.append_assoc]

theorem edge_subset_operators (t : Tree) : t.edge ⊆ t.operators := by
  induction t with
  | leaf x => simp [edge]
  | node op l r _ ih =>
    intro o ho
    rw [edge, List.mem_append, List.mem_singleton] at ho
    rw [operators, List.mem_append, List.mem_cons]
    rcases ho with hmem | rfl
    · exact Or.inr (Or.inr (ih hmem))
    · exact Or.inr (Or.inl rfl)

/-- An operator that does not bind more tightly than the root of a grouped tree binds no more tightly
than anything on the right edge. -/
theorem le_of_mem_edge {op o : Operator} {l r : Tree} (h : (node o l r).Grouped)
    (hroot : ¬ o.precedence < op.precedence) :
    ∀ top ∈ (node o l r).edge, op.precedence ≤ top.precedence := by
  obtain ⟨-, hright, -, -⟩ := h
  intro top htop
  rcases List.mem_append.1 htop with hmem | hmem
  · have := hright top (edge_subset_operators r hmem)
    omega
  · rw [List.mem_singleton.1 hmem]
    omega

/-- Where an operator goes on the right edge: those that bind at least as tightly are done, the
others stay. -/
theorem edge_extend (op : Operator) (x : Term) {t : Tree} (h : t.Grouped) :
    (t.extend op x).edge
      = op :: t.edge.dropWhile (fun top => op.precedence ≤ top.precedence) := by
  induction t with
  | leaf y => rfl
  | node o l r _ ih =>
    have hr := h.2.2.2
    rw [extend]
    split
    · next hlt =>
      -- The operator goes below the root, so the root stays on the edge.
      rw [edge, ih hr, edge, List.dropWhile_append]
      split
      · next hnil =>
        rw [List.isEmpty_iff.1 hnil, List.dropWhile_cons_of_neg (by simpa using hlt)]
        rfl
      · rfl
    · next hge =>
      -- The operator goes above the root, so all of the edge is done.
      have hall := le_of_mem_edge h hge
      rw [edge, edge, List.nil_append, List.dropWhile_eq_nil_iff.2 (by simpa using hall)]

/-- What becomes inner code when an operator goes on the right edge: the operators that are done, and
the new operand. -/
theorem inner_extend (op : Operator) (x : Term) {t : Tree} (h : t.Grouped) :
    (t.extend op x).inner leafCode
      = t.inner leafCode
        ++ (t.edge.takeWhile (fun top => op.precedence ≤ top.precedence)).map .binary
        ++ leafCode x := by
  induction t with
  | leaf y => simp [extend, inner, code, edge]
  | node o l r _ ih =>
    have hr := h.2.2.2
    rw [extend]
    split
    · -- The root is not done yet, so the operators that are done are those on the edge below it.
      next hlt =>
      rw [inner, ih hr, inner, edge, List.takeWhile_append]
      split
      · next hfull =>
        rw [List.takeWhile_cons_of_neg (by simpa using hlt)]
        have htake := (List.takeWhile_prefix (p := fun top : Operator =>
          decide (op.precedence ≤ top.precedence)) (l := r.edge)).eq_of_length hfull
        rw [htake]
        simp [List.append_assoc]
      · simp [List.append_assoc]
    · -- All of the edge is done, so all of the code is inner code now.
      next hge =>
      have hall := le_of_mem_edge h hge
      rw [List.takeWhile_eq_self_iff.2 (by simpa using hall), inner_append_edge, inner, inner]

end Tree

namespace Compile

variable {scope : Scope} {locals : Numbering}

/-- Weaving the pending operators on the edge of a tree into further operands extends the tree. -/
theorem weave_edge (leafCode : Term → List Instruction) {t : Tree} (h : t.Grouped)
    (pairs : List (Operator × Term)) :
    t.inner leafCode ++ weave t.edge (pairs.map fun pair => (pair.1, leafCode pair.2))
      = (t.extendAll pairs).code leafCode := by
  -- The edge of the tree so far is the pending list of the weaving, at every operand.
  induction pairs generalizing t with
  | nil => exact Tree.inner_append_edge leafCode t
  | cons pair rest ih =>
    show _ = ((t.extend pair.1 pair.2).extendAll rest).code leafCode
    rw [← ih (Tree.grouped_extend pair.1 pair.2 h), Tree.inner_extend leafCode _ _ h,
      Tree.edge_extend _ _ h, List.map_cons, weave, List.span_eq_takeWhile_dropWhile]
    simp only [List.append_assoc]

/-- The code of an operand, where it has any. -/
def termCode (scope : Scope) (locals : Numbering) (x : Term) : List Instruction :=
  match term scope locals x with
  | .ok code => code
  | .error _ => []

/-- Operands that compile have each the code it has alone. -/
theorem terms_ok {xs : List Term} {codes : List (List Instruction)}
    (h : terms scope locals xs = .ok codes) :
    codes = xs.map (termCode scope locals)
      ∧ ∀ x ∈ xs, term scope locals x = .ok (termCode scope locals x) := by
  induction xs generalizing codes with
  | nil =>
    cases h
    simp
  | cons first rest ih =>
    obtain ⟨code, more, hcode, hmore, rfl⟩ := terms_cons_ok h
    obtain ⟨rfl, hrest⟩ := ih hmore
    have hfirst : termCode scope locals first = code := by rw [termCode, hcode]
    refine ⟨by rw [List.map_cons, hfirst], ?_⟩
    intro x hx
    rcases List.mem_cons.1 hx with rfl | hmem
    · rw [hfirst, hcode]
    · exact hrest x hmem

/-- The code of an expression is the code of its tree in postfix order. -/
theorem expression_tree {e : Expression} {code : List Instruction}
    (h : expression scope locals e = .ok code) :
    ∃ t, e.tree? = some t
      ∧ (∀ x ∈ t.terms, term scope locals x = .ok (termCode scope locals x))
      ∧ code = t.code (termCode scope locals) := by
  obtain ⟨first, rest, firstCode, codes, hterms, hlen, hfirst, hrest, rfl⟩ := expression_ok h
  obtain ⟨rfl, hall⟩ := terms_ok hrest
  have hcode : termCode scope locals first = firstCode := by rw [termCode, hfirst]
  have htree : e.tree? = some ((Tree.leaf first).extendAll (e.operators.zip rest)) := by
    rw [Expression.tree?, hterms]
    exact if_pos hlen
  refine ⟨_, htree, ?_, ?_⟩
  · intro x hx
    rw [terms_of_tree? htree, hterms, List.mem_cons] at hx
    rcases hx with rfl | hmem
    · rw [hcode, hfirst]
    · exact hall x hmem
  · rw [← weave_edge (termCode scope locals) (t := .leaf first) trivial, List.zip_map_right]
    show _ = termCode scope locals first ++ _
    rw [hcode]
    rfl

end Compile

end Covenant
