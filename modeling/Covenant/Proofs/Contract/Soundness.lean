import Covenant.Proofs.Contract.Grammar

/-!
# What was read is written by the grammar

A reader that succeeds has consumed tokens that the grammar writes the value with. Of the tokens of
a cursor only those before the end of the input count, `Cursor.visible`; consuming one takes the
first of them off (`Cursor.peek_cases`).

* `Reader.Reads` says what holds of the value and the cursor of a reader that succeeds. It is closed
  under chaining, and there is one lemma for each reader.
* `Spans` is what holds of most of them: the tokens between two cursors write a value.
* An expression goes on as long as operators follow, so a statement that ends with one is never
  right before a `-`: statements are `Grammar.Apart`.
* `Contract.exists_grammar_of_parse` is about a whole contract.
-/

namespace Covenant

/-! ### Tokens before the end -/

/-- The tokens before the first that is the end of the input. -/
def Token.beforeEnd (tokens : List Located) : List Token :=
  (tokens.map Located.token).takeWhile (· != .eof)

namespace Cursor

variable {c : Cursor} {t : Token}

/-- The tokens that a reader can consume. -/
def visible (c : Cursor) : List Token := Token.beforeEnd c.rest

/-- A cursor shows the first two of the tokens before the end and consumes the first of them. -/
theorem peek_cases (c : Cursor) :
    c.visible = [] ∧ c.peek = .eof ∧ c.advance.visible = []
      ∨ c.peek ≠ .eof ∧ c.visible = c.peek :: c.advance.visible
        ∧ c.peekSecond = c.advance.peek := by
  obtain ⟨rest, last⟩ := c
  cases rest with
  | nil => exact Or.inl ⟨rfl, rfl, rfl⟩
  | cons item rest =>
    -- The end is not consumed, so a step at it shows it again.
    by_cases heof : item.token = .eof
    · have hnil : ∀ position, Cursor.visible ⟨item :: rest, position⟩ = [] := by
        intro position
        simp [Cursor.visible, Token.beforeEnd, heof]
      refine Or.inl ⟨hnil last, heof, ?_⟩
      rw [advance]
      dsimp only
      rw [if_pos heof]
      exact hnil item.position
    · have hadvance : Cursor.advance ⟨item :: rest, last⟩ = ⟨rest, item.position⟩ := by
        rw [advance]
        exact if_neg heof
      rw [hadvance]
      refine Or.inr ⟨heof, ?_, ?_⟩
      · simp [Cursor.visible, Token.beforeEnd, Cursor.peek, heof]
      · cases rest with
        | nil => rfl
        | cons second rest => rfl

/-- A token that comes next and is not the end is the first one before the end. -/
theorem visible_of_peek (hpeek : c.peek = t) (ht : t ≠ .eof) :
    c.visible = t :: c.advance.visible := by
  rcases c.peek_cases with ⟨-, heof, -⟩ | ⟨-, hvisible, -⟩
  · exact absurd (hpeek.symm.trans heof) ht
  · rw [hvisible, hpeek]

/-- The first token before the end comes next, and a step takes it off. -/
theorem peek_of_visible {rest : List Token} (h : c.visible = t :: rest) :
    c.peek = t ∧ c.advance.visible = rest := by
  rcases c.peek_cases with ⟨hnil, -, -⟩ | ⟨-, hvisible, -⟩
  · rw [hnil] at h
    cases h
  · rw [hvisible] at h
    exact ⟨(List.cons.inj h).1, (List.cons.inj h).2⟩

theorem visible_eq_nil (h : c.peek = .eof) : c.visible = [] := by
  rcases c.peek_cases with ⟨hnil, -, -⟩ | ⟨hne, -, -⟩
  · exact hnil
  · exact absurd h hne

theorem peek_of_visible_nil (h : c.visible = []) : c.peek = .eof := by
  rcases c.peek_cases with ⟨-, heof, -⟩ | ⟨-, hvisible, -⟩
  · exact heof
  · rw [hvisible] at h
    cases h

/-- A cursor has at least the tokens before the end. -/
theorem length_visible_le (c : Cursor) : c.visible.length ≤ c.rest.length := by
  have hsub := (List.takeWhile_sublist (fun t : Token => t != .eof) (l := c.rest.map Located.token))
  have hlength := hsub.length_le
  rwa [List.length_map] at hlength

end Cursor

/-- Keywords are words that the lexer does not tell from names. -/
theorem Token.isKeyword_iff {t : Token} {keyword : Keyword} :
    t.isKeyword keyword = true ↔ t = keyword.token := by
  cases t with
  | ident name => simp [isKeyword, Keyword.token]
  | _ => simp [isKeyword, Keyword.token]

theorem Token.eq_of_operator? {t : Token} {op : Operator} (h : t.operator? = some op) :
    t = .operator op := by
  cases t with
  | operator other => cases h; rfl
  | _ => cases h

/-- The names that are not reserved are those of the grammar. -/
theorem Keyword.isReserved_eq_false_iff {name : String} :
    isReserved name = false ↔ Grammar.Name name := by
  rw [isReserved, List.any_eq_false]
  constructor
  · intro h keyword heq
    -- The list that is searched has every keyword.
    refine h keyword ?_ (beq_iff_eq.2 heq.symm)
    cases keyword <;> decide
  · intro h keyword _ heq
    exact h keyword (eq_of_beq heq).symm

/-! ### Chaining -/

namespace Reader

variable {α β : Type} {r : Reader α} {c : Cursor} {Q : α → Cursor → Prop}
  {R : β → Cursor → Prop}

/-- If a reader succeeds, its value and the cursor after it have a property. -/
def Reads (r : Reader α) (c : Cursor) (Q : α → Cursor → Prop) : Prop :=
  ∀ a c', r c = .ok (a, c') → Q a c'

/-- Chaining. Only a run in which both readers succeed counts. -/
theorem Reads.bind {f : α → Reader β} (h : Reads r c Q)
    (hf : ∀ a c', Q a c' → Reads (f a) c' R) : Reads (r >>= f) c R := by
  intro b c'' hrun
  cases hr : r c with
  | error e => simp [StateT.bind, Bind.bind, Except.bind, hr] at hrun
  | ok result =>
    obtain ⟨a, c'⟩ := result
    refine hf a c' (h a c' hr) b c'' ?_
    simpa [StateT.bind, Bind.bind, Except.bind, hr] using hrun

/-- What is known of a result can be weakened. -/
theorem Reads.imp {Q' : α → Cursor → Prop} (h : Reads r c Q) (hQ : ∀ a c', Q a c' → Q' a c') :
    Reads r c Q' :=
  fun a c' hrun => hQ a c' (h a c' hrun)

theorem reads_pure {a : α} (h : Q a c) : Reads (pure a) c Q := by
  intro b c' hrun
  cases hrun
  exact h

/-- Nothing has to hold of a reader that fails. -/
theorem reads_fail (what : Expectation) : Reads (fail what) c Q := by
  intro a c' hrun
  cases hrun

theorem reads_peek : Reads peek c fun t c' => c' = c ∧ t = c.peek := by
  intro t c' hrun
  cases hrun
  exact ⟨rfl, rfl⟩

theorem reads_peekSecond : Reads peekSecond c fun t c' => c' = c ∧ t = c.peekSecond := by
  intro t c' hrun
  cases hrun
  exact ⟨rfl, rfl⟩

theorem reads_remaining : Reads remaining c fun n c' => c' = c ∧ n = c.rest.length := by
  intro n c' hrun
  cases hrun
  exact ⟨rfl, rfl⟩

/-- A step consumes the token that comes next. -/
theorem reads_advance {t : Token} (hpeek : c.peek = t) (ht : (t == .eof) = false) :
    Reads advance c fun _ c' => c.visible = t :: c'.visible := by
  intro u c' hrun
  cases hrun
  exact Cursor.visible_of_peek hpeek (ne_of_beq_false ht)

/-- A reader that looks whether a token comes next. -/
theorem reads_sees {t : Token} {yes no : Reader α} (hyes : c.peek = t → Reads yes c Q)
    (hno : c.peek ≠ t → Reads no c Q) : Reads (do if ← sees t then yes else no) c Q := by
  show Reads (if c.peek == t then yes else no) c Q
  by_cases hpeek : c.peek = t
  · rw [if_pos (beq_iff_eq.2 hpeek)]
    exact hyes hpeek
  · rw [if_neg (fun h => hpeek (eq_of_beq h))]
    exact hno hpeek

theorem reads_seesKeyword {keyword : Keyword} {yes no : Reader α}
    (hyes : c.peek = keyword.token → Reads yes c Q) (hno : c.peek ≠ keyword.token → Reads no c Q) :
    Reads (do if ← seesKeyword keyword then yes else no) c Q := by
  show Reads (if c.peek.isKeyword keyword then yes else no) c Q
  by_cases hpeek : c.peek = keyword.token
  · rw [if_pos (Token.isKeyword_iff.2 hpeek)]
    exact hyes hpeek
  · rw [if_neg (fun h => hpeek (Token.isKeyword_iff.1 h))]
    exact hno hpeek

/-- A token that has to come next is consumed. -/
theorem reads_expect {t : Token} (ht : (t == .eof) = false) :
    Reads (expect t) c fun _ c' => c.visible = t :: c'.visible :=
  reads_sees (fun hpeek => reads_advance hpeek ht) fun _ => reads_fail _

theorem reads_expectKeyword (keyword : Keyword) :
    Reads (expectKeyword keyword) c fun _ c' => c.visible = keyword.token :: c'.visible :=
  reads_seesKeyword (fun hpeek => reads_advance hpeek rfl) fun _ => reads_fail _

/-- A name is consumed, and it is not a reserved one. -/
theorem reads_expectName (what : Expectation) :
    Reads (expectName what) c fun name c' =>
      Grammar.Name name ∧ c.visible = .ident name :: c'.visible := by
  refine reads_peek.bind fun t c₁ h₁ => ?_
  obtain ⟨rfl, ht⟩ := h₁
  cases t with
  | ident name =>
    dsimp only
    by_cases hreserved : Keyword.isReserved name = true
    · rw [if_pos hreserved]
      exact reads_fail _
    · rw [if_neg hreserved]
      have hname := Keyword.isReserved_eq_false_iff.1 (Bool.eq_false_iff.2 hreserved)
      refine (reads_advance ht.symm rfl).bind fun _ c₂ h₂ => ?_
      exact reads_pure ⟨hname, h₂⟩
  | _ => exact reads_fail _

/-! ### Operands and expressions -/

/-- The tokens between two cursors write a value. -/
def Spans (written : List Token → α → Prop) (c : Cursor) (a : α) (c' : Cursor) : Prop :=
  ∃ ts, c.visible = ts ++ c'.visible ∧ written ts a

/-- A number is consumed, and its value is that of its digits with the sign that was read before. -/
theorem reads_number (negative : Bool) :
    Reads (number negative) c fun value c' => ∃ digits n, Text.readInt? digits = some n
      ∧ c.visible = .number digits :: c'.visible
      ∧ value = .int (if negative then -n else n) := by
  refine reads_peek.bind fun t c₁ h₁ => ?_
  obtain ⟨rfl, ht⟩ := h₁
  cases t with
  | number digits =>
    dsimp only
    cases hn : Text.readInt? digits with
    | none => exact reads_fail _
    | some n =>
      refine (reads_advance ht.symm rfl).bind fun _ c₂ h₂ => ?_
      exact reads_pure ⟨digits, n, hn, h₂, rfl⟩
  | _ => exact reads_fail _

theorem reads_some (h : Reads r c Q) :
    Reads (some <$> r) c fun value c' => ∃ a, value = some a ∧ Q a c' := by
  have hbind :
      Reads (r >>= fun a => pure (some a)) c fun value c' => ∃ a, value = some a ∧ Q a c' :=
    h.bind fun a c' ha => reads_pure ⟨a, rfl, ha⟩
  exact hbind

/-- Either a constant was read, or nothing was consumed. -/
theorem reads_literal? :
    Reads literal? c fun value c' =>
      (value = none ∧ c' = c) ∨ ∃ v, value = some v ∧ Spans Grammar.Literal c v c' := by
  have hnone : Reads (pure none) c fun value c' =>
      (value = none ∧ c' = c) ∨ ∃ v, value = some v ∧ Spans Grammar.Literal c v c' :=
    reads_pure (Or.inl ⟨rfl, rfl⟩)
  refine reads_peek.bind fun t c₁ h₁ => ?_
  obtain ⟨rfl, ht⟩ := h₁
  -- A word is a constant if it is one of two keywords.
  have hword : Reads (if t.isKeyword .true_ then (do advance; return some (.bool true))
      else if t.isKeyword .false_ then (do advance; return some (.bool false)) else return none) c₁
      fun value c' =>
        (value = none ∧ c' = c₁) ∨ ∃ v, value = some v ∧ Spans Grammar.Literal c₁ v c' := by
    by_cases htrue : t = Keyword.true_.token
    · rw [if_pos (Token.isKeyword_iff.2 htrue)]
      subst htrue
      refine (reads_advance ht.symm rfl).bind fun _ c₂ h₂ => ?_
      exact reads_pure (Or.inr ⟨_, rfl, _, h₂, .true_⟩)
    rw [if_neg (fun h => htrue (Token.isKeyword_iff.1 h))]
    by_cases hfalse : t = Keyword.false_.token
    · rw [if_pos (Token.isKeyword_iff.2 hfalse)]
      subst hfalse
      refine (reads_advance ht.symm rfl).bind fun _ c₂ h₂ => ?_
      exact reads_pure (Or.inr ⟨_, rfl, _, h₂, .false_⟩)
    rw [if_neg (fun h => hfalse (Token.isKeyword_iff.1 h))]
    exact hnone
  cases t with
  | number digits =>
    refine (reads_some (reads_number false)).imp fun value c₂ h₂ => ?_
    obtain ⟨v, rfl, digits, n, hn, h₂, rfl⟩ := h₂
    exact Or.inr ⟨_, rfl, _, h₂, .number hn⟩
  | operator op =>
    cases op with
    | subtract =>
      -- A `-` is looked at together with the token behind it.
      refine reads_peekSecond.bind fun second c₂ h₂ => ?_
      obtain ⟨rfl, -⟩ := h₂
      cases second with
      | number digits =>
        refine (reads_advance ht.symm rfl).bind fun _ c₃ h₃ => ?_
        refine (reads_some (reads_number true)).imp fun value c₄ h₄ => ?_
        obtain ⟨v, rfl, digits, n, hn, h₄, rfl⟩ := h₄
        exact Or.inr ⟨_, rfl, _, by rw [h₃, h₄]; rfl, .negative hn⟩
      | _ => exact hnone
    | _ => exact hword
  | _ => exact hword

theorem reads_literal : Reads literal c (Spans Grammar.Literal c) := by
  refine reads_literal?.bind fun value c₁ h₁ => ?_
  rcases h₁ with ⟨rfl, rfl⟩ | ⟨v, rfl, hspans⟩
  · exact reads_fail _
  · exact reads_pure hspans

/-- The readers of operands and of keys, together: each calls the other with a smaller bound. -/
theorem reads_termWithin_and_keysWithin (bound : Nat) :
    (∀ c, Reads (termWithin bound) c (Spans Grammar.Term c))
      ∧ ∀ c, Reads (keysWithin bound) c (Spans Grammar.Keys c) := by
  induction bound with
  | zero => exact ⟨fun c => reads_fail _, fun c => reads_pure ⟨[], rfl, .nil⟩⟩
  | succ bound ih =>
    refine ⟨fun c => ?_, fun c => ?_⟩
    · -- What is not a constant has to be a name, with keys or without.
      refine reads_literal?.bind fun value c₁ h₁ => ?_
      rcases h₁ with ⟨rfl, rfl⟩ | ⟨v, rfl, ts, hts, hv⟩
      · refine (reads_expectName _).bind fun base c₂ h₂ => ?_
        obtain ⟨hbase, h₂⟩ := h₂
        refine (ih.2 c₂).bind fun keys c₃ h₃ => ?_
        obtain ⟨ts, h₃, hkeys⟩ := h₃
        -- Only with a key is it an entry of a mapping.
        cases keys with
        | nil =>
          cases hkeys
          exact reads_pure ⟨[.ident base], by rw [h₂, h₃]; rfl, .ident hbase⟩
        | cons key keys =>
          exact reads_pure ⟨.ident base :: ts, by rw [h₂, h₃]; rfl, .index hbase hkeys⟩
      · exact reads_pure ⟨ts, hts, .literal hv⟩
    · refine reads_sees (fun hpeek => ?_) fun _ => reads_pure ⟨[], rfl, .nil⟩
      refine (reads_advance hpeek rfl).bind fun _ c₁ h₁ => ?_
      refine (ih.1 c₁).bind fun key c₂ h₂ => ?_
      obtain ⟨ts, h₂, hkey⟩ := h₂
      refine (reads_expect rfl).bind fun _ c₃ h₃ => ?_
      refine (ih.2 c₃).bind fun keys c₄ h₄ => ?_
      obtain ⟨us, h₄, hkeys⟩ := h₄
      exact reads_pure ⟨_, by rw [h₁, h₂, h₃, h₄]; simp, .cons hkey hkeys⟩

theorem reads_term : Reads term c (Spans Grammar.Term c) := by
  refine reads_remaining.bind fun n c₁ h₁ => ?_
  obtain ⟨rfl, -⟩ := h₁
  exact (reads_termWithin_and_keysWithin _).1 c₁

/-- Operands are read as long as operators follow, if the bound is large enough. -/
theorem reads_operandsWithin (bound : Nat) (c : Cursor) :
    Reads (operandsWithin bound) c fun pairs c' => Spans Grammar.Operands c pairs c'
      ∧ (c.visible.length ≤ bound → c'.peek.operator? = none) := by
  induction bound generalizing c with
  | zero =>
    -- A bound of zero is large enough only if no tokens are left.
    refine reads_pure ⟨⟨[], rfl, .nil⟩, fun hlength => ?_⟩
    have hnil : c.visible = [] := List.eq_nil_of_length_eq_zero (Nat.le_zero.1 hlength)
    rw [Cursor.peek_of_visible_nil hnil]
    rfl
  | succ bound ih =>
    refine reads_peek.bind fun t c₁ h₁ => ?_
    obtain ⟨rfl, ht⟩ := h₁
    cases hop : t.operator? with
    | none => exact reads_pure ⟨⟨[], rfl, .nil⟩, fun _ => ht ▸ hop⟩
    | some op =>
      obtain rfl := Token.eq_of_operator? hop
      refine (reads_advance ht.symm rfl).bind fun _ c₂ h₂ => ?_
      refine reads_term.bind fun operand c₃ h₃ => ?_
      obtain ⟨ts, h₃, hoperand⟩ := h₃
      refine (ih c₃).bind fun rest c₄ h₄ => ?_
      obtain ⟨⟨us, h₄, hrest⟩, hstops⟩ := h₄
      refine reads_pure ⟨⟨_, by rw [h₂, h₃, h₄]; simp, .cons hoperand hrest⟩, fun hlength => ?_⟩
      refine hstops ?_
      rw [h₂, h₃, List.length_cons, List.length_append] at hlength
      omega

/-- After an expression comes no operator. -/
theorem reads_expression :
    Reads expression c fun e c' => Spans Grammar.Expression c e c' ∧ c'.peek.operator? = none := by
  refine reads_term.bind fun first c₁ h₁ => ?_
  obtain ⟨ts, h₁, hfirst⟩ := h₁
  refine reads_remaining.bind fun n c₂ h₂ => ?_
  obtain ⟨rfl, rfl⟩ := h₂
  refine (reads_operandsWithin _ c₂).bind fun rest c₃ h₃ => ?_
  obtain ⟨⟨us, h₃, hrest⟩, hstops⟩ := h₃
  refine reads_pure ⟨⟨ts ++ us, ?_, .mk hfirst hrest⟩, hstops c₂.length_visible_le⟩
  rw [h₁, h₃, List.append_assoc]

/-! ### Statements -/

/-- An assignment. No operator comes next, as it ends with an expression. -/
theorem reads_assignment :
    Reads assignment c fun a c' => Spans Grammar.Assignment c a c' ∧ c'.peek.operator? = none := by
  refine reads_expression.bind fun target c₁ h₁ => ?_
  obtain ⟨⟨ts, h₁, htarget⟩, -⟩ := h₁
  refine (reads_expect rfl).bind fun _ c₂ h₂ => ?_
  refine reads_expression.bind fun value c₃ h₃ => ?_
  obtain ⟨⟨us, h₃, hvalue⟩, hstops⟩ := h₃
  exact reads_pure ⟨⟨_, by rw [h₁, h₂, h₃]; simp, .mk htarget hvalue⟩, hstops⟩

/-- A local variable. Its type is read, but nothing is kept of it. -/
theorem reads_localVariable (hpeek : c.peek = Keyword.var.token) :
    Reads localVariable c fun v c' =>
      Spans Grammar.LocalVariable c v c' ∧ c'.peek.operator? = none := by
  refine (reads_advance hpeek rfl).bind fun _ c₁ h₁ => ?_
  refine (reads_expectName _).bind fun name c₂ h₂ => ?_
  obtain ⟨hname, h₂⟩ := h₂
  -- The rest is read in the same way after a type and without one.
  have hrest : ∀ (ts : List Token) (c₃ : Cursor), c₂.visible = ts ++ c₃.visible →
      Grammar.Annotation ts →
      Reads (do expect .assign; let value ← expression; return (⟨name, value⟩ : LocalVariable)) c₃
        fun v c' => Spans Grammar.LocalVariable c v c' ∧ c'.peek.operator? = none := by
    intro ts c₃ h₃ htype
    refine (reads_expect rfl).bind fun _ c₄ h₄ => ?_
    refine reads_expression.bind fun value c₅ h₅ => ?_
    obtain ⟨⟨us, h₅, hvalue⟩, hstops⟩ := h₅
    exact reads_pure ⟨⟨_, by rw [h₁, h₂, h₃, h₄, h₅]; simp, .mk hname htype hvalue⟩, hstops⟩
  refine reads_sees (fun hcolon => ?_) fun _ => hrest [] c₂ rfl .none
  refine (reads_advance hcolon rfl).bind fun _ c₃ h₃ => ?_
  refine (reads_expectName _).bind fun type c₄ h₄ => ?_
  obtain ⟨htype, h₄⟩ := h₄
  exact hrest [.colon, .ident type] c₄ (by rw [h₃, h₄]; rfl) (.type htype)

open Grammar (Apart)

section Statements

/-- Blocks of at most so many levels. -/
def ReadsBlocks (readBlock : Reader (List Statement)) (levels : Nat) : Prop :=
  ∀ c, Reads readBlock c fun body c' => ∃ n ≤ levels, Spans (Grammar.Block Apart n) c body c'

/-- Branches after `else`, which count one level more. -/
def ReadsChained (readChained : Reader Statement) (levels : Nat) : Prop :=
  ∀ c, c.peek = Keyword.if_.token → Reads readChained c fun s c' =>
    ∃ n, n + 1 ≤ levels ∧ Spans (Grammar.Branch Apart n) c s c'

variable {readBlock : Reader (List Statement)} {readChained : Reader Statement} {levels : Nat}

/-- A branch has no more levels than its blocks may have, where a chained one counts one more. -/
theorem reads_branch (hblock : ReadsBlocks readBlock levels)
    (hchained : ReadsChained readChained levels) (hpeek : c.peek = Keyword.if_.token) :
    Reads (branch readBlock readChained) c fun s c' =>
      ∃ n ≤ levels, Spans (Grammar.Branch Apart n) c s c' := by
  refine (reads_advance hpeek rfl).bind fun _ c₁ h₁ => ?_
  refine reads_expression.bind fun condition c₂ h₂ => ?_
  obtain ⟨⟨ts, h₂, hcondition⟩, -⟩ := h₂
  refine (hblock c₂).bind fun body c₃ h₃ => ?_
  obtain ⟨n, hn, us, h₃, hbody⟩ := h₃
  refine reads_seesKeyword (fun helse => ?_) fun _ => ?_
  · refine (reads_advance helse rfl).bind fun _ c₄ h₄ => ?_
    refine reads_seesKeyword (fun hif => ?_) fun _ => ?_
    · refine (hchained c₄ hif).bind fun next c₅ h₅ => ?_
      obtain ⟨m, hm, vs, h₅, hnext⟩ := h₅
      exact reads_pure ⟨_, by omega, _, by rw [h₁, h₂, h₃, h₄, h₅]; simp,
        .chained hcondition hbody hnext⟩
    · refine (hblock c₄).bind fun elseBody c₅ h₅ => ?_
      obtain ⟨m, hm, vs, h₅, helseBody⟩ := h₅
      exact reads_pure ⟨_, by omega, _, by rw [h₁, h₂, h₃, h₄, h₅]; simp,
        .double hcondition hbody helseBody⟩
  · exact reads_pure ⟨n, hn, _, by rw [h₁, h₂, h₃]; simp, .single hcondition hbody⟩

/-- A loop ends with a block, so anything may follow it. -/
theorem reads_loop (hblock : ReadsBlocks readBlock levels) (hpeek : c.peek = Keyword.for_.token) :
    Reads (loop readBlock) c fun s c' =>
      ∃ n ≤ levels, Spans (Grammar.Statement Apart n) c s c' ∧ Apart s c'.visible := by
  refine (reads_advance hpeek rfl).bind fun _ c₁ h₁ => ?_
  refine reads_seesKeyword (fun hvar => ?_) fun _ => reads_fail _
  refine (reads_localVariable hvar).bind fun start c₂ h₂ => ?_
  obtain ⟨⟨ts, h₂, hstart⟩, -⟩ := h₂
  refine (reads_expect rfl).bind fun _ c₃ h₃ => ?_
  refine reads_expression.bind fun condition c₄ h₄ => ?_
  obtain ⟨⟨us, h₄, hcondition⟩, -⟩ := h₄
  refine (reads_expect rfl).bind fun _ c₅ h₅ => ?_
  refine reads_assignment.bind fun step c₆ h₆ => ?_
  obtain ⟨⟨vs, h₆, hstep⟩, -⟩ := h₆
  refine (hblock c₆).bind fun body c₇ h₇ => ?_
  obtain ⟨n, hn, ws, h₇, hbody⟩ := h₇
  exact reads_pure ⟨n, hn, ⟨_, by rw [h₁, h₂, h₃, h₄, h₅, h₆, h₇]; simp,
    .loop hstart hcondition hstep hbody⟩, trivial⟩

/-- Where no operator comes next, no minus sign does. -/
theorem head?_ne_subtract {c : Cursor} (h : c.peek.operator? = none) :
    c.visible.head? ≠ some (.operator .subtract) := by
  intro hhead
  obtain ⟨rest, hvisible⟩ := List.head?_eq_some_iff.1 hhead
  rw [(Cursor.peek_of_visible hvisible).1] at h
  cases h

/-- A statement, which is apart from the tokens that follow it. -/
theorem reads_statement (hblock : ReadsBlocks readBlock levels)
    (hchained : ReadsChained readChained levels) :
    Reads (statement readBlock readChained) c fun s c' =>
      ∃ n ≤ levels, Spans (Grammar.Statement Apart n) c s c' ∧ Apart s c'.visible := by
  refine reads_seesKeyword (fun hreturn => ?_) fun _ => ?_
  · refine (reads_advance hreturn rfl).bind fun _ c₁ h₁ => ?_
    refine reads_expression.bind fun value c₂ h₂ => ?_
    obtain ⟨⟨ts, h₂, hvalue⟩, hstops⟩ := h₂
    exact reads_pure ⟨0, Nat.zero_le _, ⟨_, by rw [h₁, h₂]; simp, .returns hvalue⟩,
      head?_ne_subtract hstops⟩
  refine reads_seesKeyword (fun hif => ?_) fun _ => ?_
  · refine (reads_branch hblock hchained hif).imp fun s c₁ h₁ => ?_
    obtain ⟨n, hn, ts, h₁, hbranch⟩ := h₁
    -- A branch ends with a block, whatever its form.
    refine ⟨n, hn, ⟨ts, h₁, .branch hbranch⟩, ?_⟩
    cases hbranch <;> trivial
  refine reads_seesKeyword (fun hfor => reads_loop hblock hfor) fun _ => ?_
  refine reads_seesKeyword (fun hvar => ?_) fun _ => ?_
  · refine (reads_localVariable hvar).bind fun v c₁ h₁ => ?_
    obtain ⟨⟨ts, h₁, hv⟩, hstops⟩ := h₁
    exact reads_pure ⟨0, Nat.zero_le _, ⟨ts, h₁, .declare hv⟩, head?_ne_subtract hstops⟩
  · refine reads_assignment.bind fun a c₁ h₁ => ?_
    obtain ⟨⟨ts, h₁, ha⟩, hstops⟩ := h₁
    exact reads_pure ⟨0, Nat.zero_le _, ⟨ts, h₁, .assign ha⟩, head?_ne_subtract hstops⟩

end Statements

/-- What may follow a statement with more tokens after it may follow it without them. -/
theorem apart_of_append {s : Statement} {ts us : List Token} (h : Apart s (ts ++ us)) :
    Apart s ts := by
  cases ts with
  | nil => cases s <;> first | trivial | rintro ⟨⟩
  | cons t ts => cases s <;> exact h

/-- Statements up to the closing brace, each apart from the next. By induction on the bound. -/
theorem reads_statementsWithin {next : Reader Statement} {levels : Nat}
    (hnext : ∀ c, Reads next c fun s c' =>
      ∃ n ≤ levels, Spans (Grammar.Statement Apart n) c s c' ∧ Apart s c'.visible)
    (bound : Nat) (c : Cursor) :
    Reads (statementsWithin next bound) c fun body c' =>
      ∃ n ≤ levels, Spans (Grammar.Statements Apart n) c body c' := by
  induction bound generalizing c with
  | zero => exact reads_fail _
  | succ bound ih =>
    refine reads_sees (fun _ => reads_pure ⟨0, Nat.zero_le _, [], rfl, .nil⟩) fun _ => ?_
    refine reads_sees (fun _ => reads_fail _) fun _ => ?_
    refine (hnext c).bind fun first c₁ h₁ => ?_
    obtain ⟨n, hn, ⟨ts, h₁, hfirst⟩, hapart⟩ := h₁
    refine (ih c₁).bind fun rest c₂ h₂ => ?_
    obtain ⟨m, hm, us, h₂, hrest⟩ := h₂
    -- What follows the statement is the rest of the block and what comes after it.
    rw [h₂] at hapart
    exact reads_pure ⟨max n m, Nat.max_le.2 ⟨hn, hm⟩, _, by rw [h₁, h₂, List.append_assoc],
      .cons hfirst (apart_of_append hapart) hrest⟩

/-- Blocks and chained branches, together. By induction on the levels. -/
theorem reads_block_and_chainedBranch (limit levels : Nat) :
    ReadsBlocks (block limit levels) levels ∧ ReadsChained (chainedBranch limit levels) levels := by
  induction levels with
  | zero => exact ⟨fun c => reads_fail _, fun c _ => reads_fail _⟩
  | succ levels ih =>
    refine ⟨fun c => ?_, fun c hpeek => ?_⟩
    · refine (reads_expect rfl).bind fun _ c₁ h₁ => ?_
      refine reads_remaining.bind fun n c₂ h₂ => ?_
      obtain ⟨rfl, -⟩ := h₂
      -- The statements of a block are one level further in.
      refine (reads_statementsWithin (fun c => reads_statement ih.1 ih.2) _ c₂).bind
        fun body c₃ h₃ => ?_
      obtain ⟨n, hn, ts, h₃, hbody⟩ := h₃
      refine (reads_expect rfl).bind fun _ c₄ h₄ => ?_
      exact reads_pure ⟨n + 1, Nat.succ_le_succ hn, _, by rw [h₁, h₃, h₄]; simp, .mk hbody⟩
    · refine (reads_branch ih.1 ih.2 hpeek).imp fun s c₁ h₁ => ?_
      obtain ⟨n, hn, hspans⟩ := h₁
      exact ⟨n, Nat.succ_le_succ hn, hspans⟩

/-! ### Declarations -/

/-- A storage variable with its initial value. -/
theorem reads_variableDeclaration (hpeek : c.peek = Keyword.var.token) :
    Reads variableDeclaration c fun d c' =>
      Spans (Grammar.Declaration Apart 0) c (.variable_ d) c' := by
  refine (reads_advance hpeek rfl).bind fun _ c₁ h₁ => ?_
  refine (reads_expectName _).bind fun name c₂ h₂ => ?_
  obtain ⟨hname, h₂⟩ := h₂
  refine (reads_expect rfl).bind fun _ c₃ h₃ => ?_
  refine (reads_expectName _).bind fun type c₄ h₄ => ?_
  obtain ⟨htype, h₄⟩ := h₄
  refine (reads_expect rfl).bind fun _ c₅ h₅ => ?_
  refine reads_literal.bind fun value c₆ h₆ => ?_
  obtain ⟨ts, h₆, hvalue⟩ := h₆
  exact reads_pure ⟨_, by rw [h₁, h₂, h₃, h₄, h₅, h₆]; simp, .variable_ hname htype hvalue⟩

/-- The types of a mapping are read without the closing parentheses, one for each key type. -/
theorem reads_mappingTypesWithin (bound : Nat) (c : Cursor) :
    Reads (mappingTypesWithin bound) c fun r c' =>
      Spans (fun ts types => Grammar.MappingType
        (ts ++ List.replicate types.1.length (.closes .paren)) types.1 types.2) c r c' := by
  induction bound generalizing c with
  | zero => exact reads_fail _
  | succ bound ih =>
    refine (reads_expect rfl).bind fun _ c₁ h₁ => ?_
    refine (reads_expectName _).bind fun key c₂ h₂ => ?_
    obtain ⟨hkey, h₂⟩ := h₂
    refine (reads_expect rfl).bind fun _ c₃ h₃ => ?_
    refine reads_seesKeyword (fun hmapping => ?_) fun _ => ?_
    · refine (reads_advance hmapping rfl).bind fun _ c₄ h₄ => ?_
      refine (ih c₄).bind fun r c₅ h₅ => ?_
      obtain ⟨ts, h₅, hinner⟩ := h₅
      obtain ⟨keys, value⟩ := r
      refine reads_pure ⟨_ :: _ :: _ :: _ :: ts, by rw [h₁, h₂, h₃, h₄, h₅]; rfl, ?_⟩
      -- The parenthesis of this level is closed after those of the inner ones.
      have hnested := Grammar.MappingType.nested hkey hinner
      simpa [List.replicate_succ'] using hnested
    · refine (reads_expectName _).bind fun value c₄ h₄ => ?_
      obtain ⟨hvalue, h₄⟩ := h₄
      exact reads_pure ⟨[.opens .paren, .ident key, .fatArrow, .ident value],
        by rw [h₁, h₂, h₃, h₄]; rfl, .single hkey hvalue⟩

theorem reads_closingParens (count : Nat) (c : Cursor) :
    Reads (closingParens count) c fun _ c' =>
      c.visible = List.replicate count (.closes .paren) ++ c'.visible := by
  induction count generalizing c with
  | zero => exact reads_pure rfl
  | succ count ih =>
    refine (reads_expect rfl).bind fun _ c₁ h₁ => ?_
    refine (ih c₁).imp fun _ c₂ h₂ => ?_
    rw [h₁, h₂]
    rfl

/-- A mapping, with as many closing parentheses as it has key types. -/
theorem reads_mappingDeclaration (hpeek : c.peek = Keyword.mapping.token) :
    Reads mappingDeclaration c fun d c' =>
      Spans (Grammar.Declaration Apart 0) c (.mapping d) c' := by
  refine (reads_advance hpeek rfl).bind fun _ c₁ h₁ => ?_
  refine reads_remaining.bind fun n c₂ h₂ => ?_
  obtain ⟨rfl, -⟩ := h₂
  refine (reads_mappingTypesWithin _ c₂).bind fun r c₃ h₃ => ?_
  obtain ⟨ts, h₃, htypes⟩ := h₃
  refine (reads_closingParens _ c₃).bind fun _ c₄ h₄ => ?_
  refine (reads_expectName _).bind fun name c₅ h₅ => ?_
  obtain ⟨hname, h₅⟩ := h₅
  exact reads_pure ⟨_, by rw [h₁, h₃, h₄, h₅]; simp, .mapping htypes hname⟩

/-- Parameters with commas between them, of which there is at least one. -/
theorem reads_parametersWithin (bound : Nat) (c : Cursor) :
    Reads (parametersWithin bound) c (Spans Grammar.ParameterList c) := by
  induction bound generalizing c with
  | zero => exact reads_fail _
  | succ bound ih =>
    refine (reads_expectName _).bind fun name c₁ h₁ => ?_
    obtain ⟨hname, h₁⟩ := h₁
    refine (reads_expect rfl).bind fun _ c₂ h₂ => ?_
    refine (reads_expectName _).bind fun type c₃ h₃ => ?_
    obtain ⟨htype, h₃⟩ := h₃
    refine reads_sees (fun hcomma => ?_) fun _ => ?_
    · refine (reads_advance hcomma rfl).bind fun _ c₄ h₄ => ?_
      refine (ih c₄).bind fun rest c₅ h₅ => ?_
      obtain ⟨ts, h₅, hrest⟩ := h₅
      exact reads_pure ⟨_, by rw [h₁, h₂, h₃, h₄, h₅]; rfl, .more hname htype hrest⟩
    · exact reads_pure ⟨_, by rw [h₁, h₂, h₃]; rfl, .last hname htype⟩

theorem reads_parameters : Reads parameters c (Spans Grammar.Parameters c) := by
  refine reads_sees (fun _ => reads_pure ⟨[], rfl, .none⟩) fun _ => ?_
  refine reads_remaining.bind fun n c₁ h₁ => ?_
  obtain ⟨rfl, -⟩ := h₁
  refine (reads_parametersWithin _ c₁).imp fun ps c₂ h₂ => ?_
  obtain ⟨ts, h₂, hps⟩ := h₂
  exact ⟨ts, h₂, .some hps⟩

theorem reads_returnType : Reads returnType c (Spans Grammar.ReturnType c) := by
  refine reads_sees (fun harrow => ?_) fun _ => reads_pure ⟨[], rfl, .none⟩
  refine (reads_advance harrow rfl).bind fun _ c₁ h₁ => ?_
  refine (reads_expectName _).bind fun type c₂ h₂ => ?_
  obtain ⟨htype, h₂⟩ := h₂
  exact reads_pure ⟨_, by rw [h₁, h₂]; rfl, .some htype⟩

/-- A function, whose body has as many levels as are allowed at most. -/
theorem reads_functionDeclaration (limit : Nat) (hpeek : c.peek = Keyword.func.token) :
    Reads (functionDeclaration limit) c fun f c' =>
      ∃ n ≤ limit, Spans (Grammar.Declaration Apart n) c (.function f) c' := by
  refine (reads_advance hpeek rfl).bind fun _ c₁ h₁ => ?_
  refine (reads_expectName _).bind fun name c₂ h₂ => ?_
  obtain ⟨hname, h₂⟩ := h₂
  refine (reads_expect rfl).bind fun _ c₃ h₃ => ?_
  refine reads_parameters.bind fun ps c₄ h₄ => ?_
  obtain ⟨ts, h₄, hps⟩ := h₄
  refine (reads_expect rfl).bind fun _ c₅ h₅ => ?_
  refine reads_returnType.bind fun type c₆ h₆ => ?_
  obtain ⟨us, h₆, htype⟩ := h₆
  refine ((reads_block_and_chainedBranch limit limit).1 c₆).bind fun body c₇ h₇ => ?_
  obtain ⟨n, hn, vs, h₇, hbody⟩ := h₇
  exact reads_pure ⟨n, hn, _, by rw [h₁, h₂, h₃, h₄, h₅, h₆, h₇]; simp,
    .function hname hps htype hbody⟩

/-- A declaration, of which only functions have levels. -/
theorem reads_declaration (limit : Nat) :
    Reads (declaration limit) c fun d c' =>
      ∃ n ≤ limit, Spans (Grammar.Declaration Apart n) c d c' := by
  refine reads_seesKeyword (fun hvar => ?_) fun _ => ?_
  · exact (reads_variableDeclaration hvar).bind fun d c₁ h₁ =>
      reads_pure ⟨0, Nat.zero_le _, h₁⟩
  refine reads_seesKeyword (fun hmapping => ?_) fun _ => ?_
  · exact (reads_mappingDeclaration hmapping).bind fun d c₁ h₁ =>
      reads_pure ⟨0, Nat.zero_le _, h₁⟩
  refine reads_seesKeyword (fun hfunc => ?_) fun _ => reads_fail _
  exact (reads_functionDeclaration limit hfunc).bind fun f c₁ h₁ => reads_pure h₁

/-- Declarations up to the closing brace. They have the levels of the deepest one. -/
theorem reads_declarationsWithin (limit bound : Nat) (c : Cursor) :
    Reads (declarationsWithin limit bound) c fun ds c' =>
      ∃ n ≤ limit, Spans (Grammar.Declarations Apart n) c ds c' := by
  induction bound generalizing c with
  | zero => exact reads_fail _
  | succ bound ih =>
    refine reads_sees (fun _ => reads_pure ⟨0, Nat.zero_le _, [], rfl, .nil⟩) fun _ => ?_
    refine (reads_declaration limit).bind fun first c₁ h₁ => ?_
    obtain ⟨n, hn, ts, h₁, hfirst⟩ := h₁
    refine (ih c₁).bind fun rest c₂ h₂ => ?_
    obtain ⟨m, hm, us, h₂, hrest⟩ := h₂
    exact reads_pure ⟨max n m, Nat.max_le.2 ⟨hn, hm⟩, _, by rw [h₁, h₂, List.append_assoc],
      .cons hfirst hrest⟩

/-- A contract consumes all the tokens before the end. -/
theorem reads_contract (limit : Nat) :
    Reads (contract limit) c fun contract _ =>
      ∃ n ≤ limit, Grammar.Contract Apart n c.visible contract := by
  refine (reads_expectKeyword _).bind fun _ c₁ h₁ => ?_
  refine (reads_expectName _).bind fun name c₂ h₂ => ?_
  obtain ⟨hname, h₂⟩ := h₂
  refine (reads_expect rfl).bind fun _ c₃ h₃ => ?_
  refine reads_remaining.bind fun n c₄ h₄ => ?_
  obtain ⟨rfl, -⟩ := h₄
  refine (reads_declarationsWithin limit _ c₄).bind fun ds c₅ h₅ => ?_
  obtain ⟨n, hn, ts, h₅, hds⟩ := h₅
  refine (reads_expect rfl).bind fun _ c₆ h₆ => ?_
  -- The end of the input is not consumed, but nothing is before it.
  have hend : Reads (expect .eof) c₆ fun _ _ => c₆.visible = [] :=
    reads_sees (fun heof _ _ _ => Cursor.visible_eq_nil heof) fun _ => reads_fail _
  refine hend.bind fun _ c₇ h₇ => ?_
  refine reads_pure ⟨n, hn, ?_⟩
  have hvisible : c.visible = Keyword.contract.token :: .ident name :: .opens .brace :: ts
      ++ [.closes .brace] := by
    rw [h₁, h₂, h₃, h₅, h₆, h₇]
    rfl
  rw [hvisible]
  exact .mk hname hds

end Reader

/-- A contract that was read is written by the tokens before the end of the input. -/
theorem Contract.exists_grammar_of_parse {tokens : List Located} {limit : Nat} {c : Contract}
    (h : Contract.parse tokens limit = .ok c) :
    ∃ n ≤ limit, Grammar.Contract Grammar.Apart n (Token.beforeEnd tokens) c := by
  unfold parse at h
  cases hrun : Reader.contract limit ⟨tokens, .start⟩ with
  | error e => rw [hrun] at h; cases h
  | ok result =>
    rw [hrun] at h
    cases h
    exact Reader.reads_contract limit result.1 result.2 hrun

end Covenant
