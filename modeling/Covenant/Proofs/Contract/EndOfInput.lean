import Covenant.Proofs.Contract.Completeness

/-!
# Tokens after the end of the input

A reader never looks behind the first `Token.eof`: with the tokens after it taken away it gives the
same value or the same failure. The tokens that are left are counted for the bounds of loops, and
that count changes; but a bound is never reached, since each round of a loop consumes a token.

* `Reader.Alike` compares a reader with one that may have other bounds and sees fewer tokens. It is
  closed under chaining, and there is one lemma for each reader.
* `Contract.parse_throughEnd` is about a whole contract.
-/

namespace Covenant

/-- The tokens up to the first that is the end of the input, and that one. -/
def Token.throughEnd : List Located → List Located
  | [] => []
  | item :: rest => if item.token = .eof then [item] else item :: throughEnd rest

/-- Nothing after the end of the input is kept. -/
theorem Token.throughEnd_append {item : Located} (hend : item.token = .eof)
    (before after : List Located) :
    throughEnd (before ++ item :: after) = throughEnd (before ++ [item]) := by
  -- If the end comes earlier, it is cut there on both sides.
  induction before with
  | nil => simp [throughEnd, hend]
  | cons first before ih =>
    rw [List.cons_append, List.cons_append, throughEnd, throughEnd, ih]

namespace Cursor

/-- The cursor without the tokens after the end of the input. -/
def cut (c : Cursor) : Cursor := ⟨Token.throughEnd c.rest, c.last⟩

/-- What a reader can see of a cursor is left. -/
theorem cut_cases (c : Cursor) :
    c.cut.peek = c.peek ∧ c.cut.advance = c.advance.cut
      ∧ (∀ what, c.cut.failure what = c.failure what)
      ∧ (c.peek ≠ .eof → c.cut.peekSecond = c.peekSecond) := by
  obtain ⟨rest, last⟩ := c
  cases rest with
  | nil => exact ⟨rfl, rfl, fun _ => rfl, fun _ => rfl⟩
  | cons item rest =>
    -- At the end a step stays, and otherwise it drops a token. Both can be done before or after
    -- cutting.
    by_cases heof : item.token = .eof
    · have hcut : ∀ position, Cursor.cut ⟨item :: rest, position⟩ = ⟨[item], position⟩ := by
        intro position
        rw [cut, Token.throughEnd, if_pos heof]
      have hadvance : ∀ more, Cursor.advance ⟨item :: more, last⟩ = ⟨item :: more, item.position⟩ :=
        fun more => if_pos heof
      rw [hcut, hadvance, hadvance, hcut]
      exact ⟨rfl, rfl, fun _ => rfl, fun hpeek => absurd heof hpeek⟩
    · have hcut : Cursor.cut ⟨item :: rest, last⟩ = ⟨item :: Token.throughEnd rest, last⟩ := by
        rw [cut, Token.throughEnd, if_neg heof]
      have hadvance : ∀ more, Cursor.advance ⟨item :: more, last⟩ = ⟨more, item.position⟩ :=
        fun more => if_neg heof
      rw [hcut, hadvance, hadvance]
      refine ⟨rfl, rfl, fun _ => rfl, fun _ => ?_⟩
      cases rest with
      | nil => rfl
      | cons second rest =>
        rw [Token.throughEnd]
        split
        · rfl
        · rfl

/-- The tokens before the end are not those that are taken away. -/
theorem visible_cut (c : Cursor) : c.cut.visible = c.visible := by
  obtain ⟨rest, last⟩ := c
  show Token.beforeEnd (Token.throughEnd rest) = Token.beforeEnd rest
  induction rest with
  | nil => rfl
  | cons item rest ih =>
    rw [Token.throughEnd]
    by_cases heof : item.token = .eof
    · rw [if_pos heof]
      simp [Token.beforeEnd, heof]
    · rw [if_neg heof]
      simp only [Token.beforeEnd, List.map_cons] at ih ⊢
      rw [List.takeWhile_cons, List.takeWhile_cons, ih]

end Cursor

namespace Reader

variable {α β : Type} {r s yes no yes' no' : Reader α} {c : Cursor}

/-- The second reader does without the tokens after the end what the first does with them. -/
def Alike (r s : Reader α) (c : Cursor) : Prop :=
  s c.cut = (r c).map fun result => (result.1, result.2.cut)

/-- Chaining. What is known of the value of the first reader can be used for the second. -/
theorem Alike.bind {f g : α → Reader β} {Q : α → Cursor → Prop} (h : Alike r s c)
    (hreads : Reads r c Q) (hf : ∀ a c', Q a c' → Alike (f a) (g a) c') :
    Alike (r >>= f) (s >>= g) c := by
  unfold Alike at h ⊢
  -- The second reader begins where the first has come to, which is cut in the same way.
  cases hrun : r c with
  | error e =>
    rw [hrun] at h
    have hcut : s c.cut = .error e := h
    have hr : (r >>= f) c = .error e := by simp [StateT.bind, Bind.bind, Except.bind, hrun]
    have hs : (s >>= g) c.cut = .error e := by simp [StateT.bind, Bind.bind, Except.bind, hcut]
    rw [hr, hs]
    rfl
  | ok result =>
    obtain ⟨a, c'⟩ := result
    rw [hrun] at h
    have hcut : s c.cut = .ok (a, c'.cut) := h
    have hr : (r >>= f) c = f a c' := by simp [StateT.bind, Bind.bind, Except.bind, hrun]
    have hs : (s >>= g) c.cut = g a c'.cut := by simp [StateT.bind, Bind.bind, Except.bind, hcut]
    rw [hr, hs]
    exact hf a c' (hreads a c' hrun)

/-- Chaining where nothing has to be known of the first value. -/
theorem Alike.andThen {f g : α → Reader β} (h : Alike r s c)
    (hf : ∀ a c', Alike (f a) (g a) c') : Alike (r >>= f) (s >>= g) c :=
  h.bind (fun _ _ _ => trivial) fun a c' (_ : True) => hf a c'

theorem alike_pure (a : α) : Alike (pure a) (pure a) c := rfl

/-- A failure stands at the next token, which is not taken away. -/
theorem alike_fail (what : Expectation) : Alike (fail what : Reader α) (fail what) c :=
  congrArg Except.error (c.cut_cases.2.2.1 what)

theorem alike_peek : Alike peek peek c :=
  congrArg (fun t => Except.ok (t, c.cut)) c.cut_cases.1

/-- The second token is the same too, unless the first is the end. -/
theorem alike_peekSecond (h : c.peek ≠ .eof) : Alike peekSecond peekSecond c :=
  congrArg (fun t => Except.ok (t, c.cut)) (c.cut_cases.2.2.2 h)

/-- A step leads to the same place. -/
theorem alike_advance : Alike advance advance c :=
  congrArg (fun c' => Except.ok ((), c')) c.cut_cases.2.1

theorem alike_ite {p : Prop} [Decidable p] (hyes : Alike yes yes' c) (hno : Alike no no' c) :
    Alike (if p then yes else no) (if p then yes' else no') c := by
  split
  · exact hyes
  · exact hno

/-- A reader that asks for the next token goes the same way in both. -/
theorem alike_sees {t : Token} (hyes : c.peek = t → Alike yes yes' c)
    (hno : c.peek ≠ t → Alike no no' c) :
    Alike (do if ← sees t then yes else no) (do if ← sees t then yes' else no') c := by
  show (if c.cut.peek == t then yes' else no') c.cut
    = ((if c.peek == t then yes else no) c).map fun result => (result.1, result.2.cut)
  rw [c.cut_cases.1]
  by_cases hpeek : c.peek = t
  · rw [if_pos (beq_iff_eq.2 hpeek), if_pos (beq_iff_eq.2 hpeek)]
    exact hyes hpeek
  · rw [if_neg (fun h => hpeek (eq_of_beq h)), if_neg (fun h => hpeek (eq_of_beq h))]
    exact hno hpeek

/-- A reader that asks for a keyword goes the same way in both. -/
theorem alike_seesKeyword {keyword : Keyword} (hyes : c.peek = keyword.token → Alike yes yes' c)
    (hno : c.peek ≠ keyword.token → Alike no no' c) :
    Alike (do if ← seesKeyword keyword then yes else no)
      (do if ← seesKeyword keyword then yes' else no') c := by
  show (if c.cut.peek.isKeyword keyword then yes' else no') c.cut
    = ((if c.peek.isKeyword keyword then yes else no) c).map fun result => (result.1, result.2.cut)
  rw [c.cut_cases.1]
  by_cases hpeek : c.peek = keyword.token
  · rw [if_pos (Token.isKeyword_iff.2 hpeek), if_pos (Token.isKeyword_iff.2 hpeek)]
    exact hyes hpeek
  · rw [if_neg (fun h => hpeek (Token.isKeyword_iff.1 h)),
      if_neg (fun h => hpeek (Token.isKeyword_iff.1 h))]
    exact hno hpeek

theorem alike_expect (t : Token) : Alike (expect t) (expect t) c :=
  alike_sees (fun _ => alike_advance) fun _ => alike_fail _

theorem alike_expectKeyword (keyword : Keyword) :
    Alike (expectKeyword keyword) (expectKeyword keyword) c :=
  alike_seesKeyword (fun _ => alike_advance) fun _ => alike_fail _

/-- A name is recognised by the next token. -/
theorem alike_expectName (what : Expectation) : Alike (expectName what) (expectName what) c := by
  refine alike_peek.andThen fun t c₁ => ?_
  cases t with
  | ident name =>
    dsimp only
    split
    · exact alike_fail _
    · exact alike_advance.andThen fun _ _ => alike_pure _
  | _ => exact alike_fail _

/-! ### Operands and expressions -/

/-- What is written between two cursors is not there to be read again. -/
theorem Spans.length_le {written : List Token → α → Prop} {a : α} {c c' : Cursor}
    (h : Spans written c a c') : c'.visible.length ≤ c.visible.length := by
  obtain ⟨ts, h, -⟩ := h
  rw [h, List.length_append]
  omega

/-- The digits of a number are one token. -/
theorem alike_number (negative : Bool) : Alike (number negative) (number negative) c := by
  refine alike_peek.andThen fun t c₁ => ?_
  cases t with
  | number digits =>
    dsimp only
    cases Text.readInt? digits with
    | none => exact alike_fail _
    | some n => exact alike_advance.andThen fun _ _ => alike_pure _
  | _ => exact alike_fail _

theorem alike_some (h : Alike r s c) : Alike (some <$> r) (some <$> s) c := by
  have hbind : Alike (r >>= fun a => pure (some a)) (s >>= fun a => pure (some a)) c :=
    h.andThen fun _ _ => alike_pure _
  exact hbind

/-- A constant may be two tokens. The second is looked at only behind a `-`, so the end is not the
first. -/
theorem alike_literal? : Alike literal? literal? c := by
  refine alike_peek.bind reads_peek fun t c₁ h₁ => ?_
  obtain ⟨rfl, ht⟩ := h₁
  cases t with
  | number digits => exact alike_some (alike_number false)
  | operator op =>
    cases op with
    | subtract =>
      have hpeek : c₁.peek ≠ .eof := by
        rw [← ht]
        exact nofun
      refine (alike_peekSecond hpeek).andThen fun second c₂ => ?_
      cases second with
      | number digits => exact alike_advance.andThen fun _ _ => alike_some (alike_number true)
      | _ => exact alike_pure none
    | _ => exact alike_pure none
  | _ =>
    exact alike_ite (alike_advance.andThen fun _ _ => alike_pure _)
      (alike_ite (alike_advance.andThen fun _ _ => alike_pure _) (alike_pure _))

theorem alike_literal : Alike literal literal c := by
  refine alike_literal?.andThen fun value c₁ => ?_
  cases value with
  | none => exact alike_fail _
  | some value => exact alike_pure value

/-- Each call with a smaller bound comes after a token was consumed. -/
theorem alike_termWithin_and_keysWithin (bound : Nat) :
    (∀ (bound' : Nat) (c : Cursor), c.visible.length < bound → c.visible.length < bound' →
        Alike (termWithin bound) (termWithin bound') c)
      ∧ ∀ (bound' : Nat) (c : Cursor), c.visible.length < bound → c.visible.length < bound' →
        Alike (keysWithin bound) (keysWithin bound') c := by
  induction bound with
  | zero =>
    exact ⟨fun _ _ h => absurd h (Nat.not_lt_zero _), fun _ _ h => absurd h (Nat.not_lt_zero _)⟩
  | succ bound ih =>
    refine ⟨fun bound' c h h' => ?_, fun bound' c h h' => ?_⟩
    · cases bound' with
      | zero => exact absurd h' (Nat.not_lt_zero _)
      | succ bound' =>
        refine alike_literal?.bind reads_literal? fun value c₁ h₁ => ?_
        rcases h₁ with ⟨rfl, rfl⟩ | ⟨v, rfl, -⟩
        · refine (alike_expectName _).bind (reads_expectName _) fun base c₂ h₂ => ?_
          -- The name is one token less, which is what the smaller bounds need.
          rw [h₂.2, List.length_cons] at h h'
          refine (ih.2 bound' c₂ (by omega) (by omega)).andThen fun keys c₃ => ?_
          cases keys with
          | nil => exact alike_pure _
          | cons key keys => exact alike_pure _
        · exact alike_pure _
    · cases bound' with
      | zero => exact absurd h' (Nat.not_lt_zero _)
      | succ bound' =>
        refine alike_sees (fun hpeek => ?_) fun _ => alike_pure _
        refine alike_advance.bind (reads_advance hpeek rfl) fun _ c₁ h₁ => ?_
        rw [h₁, List.length_cons] at h h'
        refine (ih.1 bound' c₁ (by omega) (by omega)).bind
          ((reads_termWithin_and_keysWithin bound).1 c₁) fun key c₂ h₂ => ?_
        have hle := h₂.length_le
        refine (alike_expect _).bind (reads_expect rfl) fun _ c₃ h₃ => ?_
        rw [h₃, List.length_cons] at hle
        exact (ih.2 bound' c₃ (by omega) (by omega)).andThen fun _ _ => alike_pure _

/-- A reader with a bound that is counted from the tokens to come. -/
theorem alike_remaining {r s : Nat → Reader α}
    (h : Alike (r c.rest.length) (s c.cut.rest.length) c) :
    Alike (do r (← remaining)) (do s (← remaining)) c := h

/-- Counted with the tokens after the end or without them, the bound is large enough. -/
theorem length_visible_lt (c : Cursor) :
    c.visible.length < c.rest.length + 1 ∧ c.visible.length < c.cut.rest.length + 1 := by
  have hle := c.length_visible_le
  have hcut := c.cut.length_visible_le
  rw [c.visible_cut] at hcut
  omega

/-- An operand, whose bound is one more than the number of tokens. -/
theorem alike_term : Alike term term c :=
  alike_remaining ((alike_termWithin_and_keysWithin _).1 _ c (length_visible_lt c).1
    (length_visible_lt c).2)

/-- At the end of the input there are no more operands, whatever the bound. -/
theorem operandsWithin_of_nil (bound : Nat) (h : c.visible = []) :
    operandsWithin bound c = .ok ([], c) := by
  cases bound with
  | zero => rfl
  | succ bound =>
    have hpeek : peek c = .ok (.eof, c) := by rw [peek, Cursor.peek_of_visible_nil h]
    rw [operandsWithin]
    simp [StateT.bind, Bind.bind, Except.bind, hpeek, Token.operator?]
    rfl

/-- Operators with operands, for any two bounds that are large enough. By induction on the first. -/
theorem alike_operandsWithin (bound bound' : Nat) (c : Cursor) (h : c.visible.length ≤ bound)
    (h' : c.visible.length ≤ bound') : Alike (operandsWithin bound) (operandsWithin bound') c := by
  induction bound generalizing bound' c with
  | zero =>
    -- No tokens are left, and then a bound does not matter.
    have hnil := List.eq_nil_of_length_eq_zero (Nat.le_zero.1 h)
    unfold Alike
    rw [operandsWithin_of_nil 0 hnil, operandsWithin_of_nil bound' (c.visible_cut.trans hnil)]
    rfl
  | succ bound ih =>
    cases bound' with
    | zero =>
      have hnil := List.eq_nil_of_length_eq_zero (Nat.le_zero.1 h')
      unfold Alike
      rw [operandsWithin_of_nil _ hnil, operandsWithin_of_nil 0 (c.visible_cut.trans hnil)]
      rfl
    | succ bound' =>
      refine alike_peek.bind reads_peek fun t c₁ h₁ => ?_
      obtain ⟨rfl, ht⟩ := h₁
      cases hop : t.operator? with
      | none => exact alike_pure _
      | some op =>
        obtain rfl := Token.eq_of_operator? hop
        refine alike_advance.bind (reads_advance ht.symm rfl) fun _ c₂ h₂ => ?_
        rw [h₂, List.length_cons] at h h'
        refine alike_term.bind reads_term fun operand c₃ h₃ => ?_
        have hle := h₃.length_le
        exact (ih bound' c₃ (by omega) (by omega)).andThen fun _ _ => alike_pure _

theorem alike_expression : Alike expression expression c := by
  refine alike_term.andThen fun first c₁ => ?_
  have hlength := length_visible_lt c₁
  refine alike_remaining (Alike.andThen ?_ fun _ _ => alike_pure _)
  exact alike_operandsWithin _ _ c₁ (Nat.le_of_lt_succ hlength.1) (Nat.le_of_lt_succ hlength.2)

/-! ### Statements -/

theorem alike_assignment : Alike assignment assignment c :=
  alike_expression.andThen fun _ _ => (alike_expect _).andThen fun _ _ =>
    alike_expression.andThen fun _ _ => alike_pure _

theorem alike_localVariable : Alike localVariable localVariable c := by
  refine alike_advance.andThen fun _ c₁ => ?_
  refine (alike_expectName _).andThen fun name c₂ => ?_
  have hrest : ∀ c₃, Alike
      (do expect .assign; let value ← expression; return (⟨name, value⟩ : LocalVariable))
      (do expect .assign; let value ← expression; return (⟨name, value⟩ : LocalVariable)) c₃ :=
    fun c₃ => (alike_expect _).andThen fun _ _ => alike_expression.andThen fun _ _ => alike_pure _
  refine alike_sees (fun _ => ?_) fun _ => hrest c₂
  exact alike_advance.andThen fun _ _ => (alike_expectName _).andThen fun _ c₃ => hrest c₃

section Statements

variable {readBlock : Reader (List Statement)} {readChained : Reader Statement}
  (hblock : ∀ c, Alike readBlock readBlock c) (hchained : ∀ c, Alike readChained readChained c)

include hblock hchained

theorem alike_branch : Alike (branch readBlock readChained) (branch readBlock readChained) c := by
  refine alike_advance.andThen fun _ c₁ => ?_
  refine alike_expression.andThen fun condition c₂ => ?_
  refine (hblock c₂).andThen fun body c₃ => ?_
  refine alike_seesKeyword (fun _ => ?_) fun _ => alike_pure _
  refine alike_advance.andThen fun _ c₄ => ?_
  refine alike_seesKeyword (fun _ => ?_) fun _ => ?_
  · exact (hchained c₄).andThen fun _ _ => alike_pure _
  · exact (hblock c₄).andThen fun _ _ => alike_pure _

omit hchained in
theorem alike_loop : Alike (loop readBlock) (loop readBlock) c := by
  refine alike_advance.andThen fun _ c₁ => ?_
  refine alike_seesKeyword (fun _ => ?_) fun _ => alike_fail _
  refine alike_localVariable.andThen fun start c₂ => ?_
  refine (alike_expect _).andThen fun _ c₃ => ?_
  refine alike_expression.andThen fun condition c₄ => ?_
  refine (alike_expect _).andThen fun _ c₅ => ?_
  refine alike_assignment.andThen fun step c₆ => ?_
  exact (hblock c₆).andThen fun _ _ => alike_pure _

theorem alike_statement :
    Alike (statement readBlock readChained) (statement readBlock readChained) c := by
  refine alike_seesKeyword (fun _ => ?_) fun _ => ?_
  · exact alike_advance.andThen fun _ _ => alike_expression.andThen fun _ _ => alike_pure _
  refine alike_seesKeyword (fun _ => alike_branch hblock hchained) fun _ => ?_
  refine alike_seesKeyword (fun _ => alike_loop hblock) fun _ => ?_
  refine alike_seesKeyword (fun _ => ?_) fun _ => ?_
  · exact alike_localVariable.andThen fun _ _ => alike_pure _
  · exact alike_assignment.andThen fun _ _ => alike_pure _

end Statements

/-- Statements up to the closing brace. Each of them consumes a token, so the bounds stay large
enough. -/
theorem alike_statementsWithin {next : Reader Statement} (hnext : ∀ c, Alike next next c)
    (hreads : ∀ c, Reads next c fun _ c' => c'.visible.length < c.visible.length)
    (bound bound' : Nat) (c : Cursor) (h : c.visible.length < bound)
    (h' : c.visible.length < bound') :
    Alike (statementsWithin next bound) (statementsWithin next bound') c := by
  induction bound generalizing bound' c with
  | zero => exact absurd h (Nat.not_lt_zero _)
  | succ bound ih =>
    cases bound' with
    | zero => exact absurd h' (Nat.not_lt_zero _)
    | succ bound' =>
      refine alike_sees (fun _ => alike_pure _) fun _ => ?_
      refine alike_sees (fun _ => alike_fail _) fun _ => ?_
      -- At least one token is read between two rounds.
      refine (hnext c).bind (hreads c) fun first c₁ h₁ => ?_
      exact (ih bound' c₁ (by omega) (by omega)).andThen fun _ _ => alike_pure _

/-- A statement is at least one token. -/
theorem reads_statement_shorter {limit levels : Nat} (c : Cursor) :
    Reads (statement (block limit levels) (chainedBranch limit levels)) c
      fun _ c' => c'.visible.length < c.visible.length := by
  obtain ⟨hblock, hchained⟩ := reads_block_and_chainedBranch limit levels
  refine (reads_statement hblock hchained).imp fun s c' h => ?_
  obtain ⟨n, -, ⟨ts, h, hs⟩, -⟩ := h
  obtain ⟨first, rest, rfl, -⟩ := hs.starts
  rw [h, List.length_append, List.length_cons]
  omega

/-- Blocks and chained branches, together. By induction on the levels, which count the braces and
not the tokens and are the same in both. -/
theorem alike_block_and_chainedBranch (limit levels : Nat) :
    (∀ c, Alike (block limit levels) (block limit levels) c)
      ∧ ∀ c, Alike (chainedBranch limit levels) (chainedBranch limit levels) c := by
  induction levels with
  | zero => exact ⟨fun c => alike_fail _, fun c => alike_fail _⟩
  | succ levels ih =>
    refine ⟨fun c => ?_, fun c => alike_branch ih.1 ih.2⟩
    refine (alike_expect _).andThen fun _ c₁ => ?_
    have hlength := length_visible_lt c₁
    refine alike_remaining (Alike.andThen ?_ fun _ _ => ?_)
    · exact alike_statementsWithin (fun c => alike_statement ih.1 ih.2) reads_statement_shorter
        _ _ c₁ hlength.1 hlength.2
    · exact (alike_expect _).andThen fun _ _ => alike_pure _

/-! ### Declarations -/

theorem alike_variableDeclaration : Alike variableDeclaration variableDeclaration c :=
  alike_advance.andThen fun _ _ => (alike_expectName _).andThen fun _ _ =>
    (alike_expect _).andThen fun _ _ => (alike_expectName _).andThen fun _ _ =>
      (alike_expect _).andThen fun _ _ => alike_literal.andThen fun _ _ => alike_pure _

/-- The types of a mapping, of which each level is three tokens and more. -/
theorem alike_mappingTypesWithin (bound bound' : Nat) (c : Cursor) (h : c.visible.length < bound)
    (h' : c.visible.length < bound') :
    Alike (mappingTypesWithin bound) (mappingTypesWithin bound') c := by
  induction bound generalizing bound' c with
  | zero => exact absurd h (Nat.not_lt_zero _)
  | succ bound ih =>
    cases bound' with
    | zero => exact absurd h' (Nat.not_lt_zero _)
    | succ bound' =>
      refine (alike_expect _).bind (reads_expect rfl) fun _ c₁ h₁ => ?_
      refine (alike_expectName _).bind (reads_expectName _) fun key c₂ h₂ => ?_
      refine (alike_expect _).bind (reads_expect rfl) fun _ c₃ h₃ => ?_
      refine alike_seesKeyword (fun hmapping => ?_) fun _ => ?_
      · refine alike_advance.bind (reads_advance hmapping rfl) fun _ c₄ h₄ => ?_
        -- Four tokens have been read before the next level.
        rw [h₁, h₂.2, h₃, h₄] at h h'
        simp only [List.length_cons] at h h'
        exact (ih bound' c₄ (by omega) (by omega)).andThen fun _ _ => alike_pure _
      · exact (alike_expectName _).andThen fun _ _ => alike_pure _

theorem alike_closingParens (count : Nat) (c : Cursor) :
    Alike (closingParens count) (closingParens count) c := by
  induction count generalizing c with
  | zero => exact alike_pure _
  | succ count ih => exact (alike_expect _).andThen fun _ c₁ => ih c₁

theorem alike_mappingDeclaration : Alike mappingDeclaration mappingDeclaration c := by
  refine alike_advance.andThen fun _ c₁ => ?_
  have hlength := length_visible_lt c₁
  refine alike_remaining (Alike.andThen ?_ fun r c₂ => ?_)
  · exact alike_mappingTypesWithin _ _ c₁ hlength.1 hlength.2
  · exact (alike_closingParens _ c₂).andThen fun _ _ =>
      (alike_expectName _).andThen fun _ _ => alike_pure _

theorem alike_parametersWithin (bound bound' : Nat) (c : Cursor) (h : c.visible.length < bound)
    (h' : c.visible.length < bound') :
    Alike (parametersWithin bound) (parametersWithin bound') c := by
  induction bound generalizing bound' c with
  | zero => exact absurd h (Nat.not_lt_zero _)
  | succ bound ih =>
    cases bound' with
    | zero => exact absurd h' (Nat.not_lt_zero _)
    | succ bound' =>
      refine (alike_expectName _).bind (reads_expectName _) fun name c₁ h₁ => ?_
      refine (alike_expect _).bind (reads_expect rfl) fun _ c₂ h₂ => ?_
      refine (alike_expectName _).bind (reads_expectName _) fun type c₃ h₃ => ?_
      refine alike_sees (fun hcomma => ?_) fun _ => alike_pure _
      refine alike_advance.bind (reads_advance hcomma rfl) fun _ c₄ h₄ => ?_
      rw [h₁.2, h₂, h₃.2, h₄] at h h'
      simp only [List.length_cons] at h h'
      exact (ih bound' c₄ (by omega) (by omega)).andThen fun _ _ => alike_pure _

theorem alike_parameters : Alike parameters parameters c := by
  have hlength := length_visible_lt c
  refine alike_sees (fun _ => alike_pure _) fun _ => ?_
  exact alike_remaining (alike_parametersWithin _ _ c hlength.1 hlength.2)

theorem alike_returnType : Alike returnType returnType c := by
  refine alike_sees (fun _ => ?_) fun _ => alike_pure _
  exact alike_advance.andThen fun _ _ => (alike_expectName _).andThen fun _ _ => alike_pure _

theorem alike_functionDeclaration (limit : Nat) :
    Alike (functionDeclaration limit) (functionDeclaration limit) c := by
  refine alike_advance.andThen fun _ c₁ => ?_
  refine (alike_expectName _).andThen fun name c₂ => ?_
  refine (alike_expect _).andThen fun _ c₃ => ?_
  refine alike_parameters.andThen fun ps c₄ => ?_
  refine (alike_expect _).andThen fun _ c₅ => ?_
  refine alike_returnType.andThen fun type c₆ => ?_
  exact ((alike_block_and_chainedBranch limit limit).1 c₆).andThen fun _ _ => alike_pure _

theorem alike_declaration (limit : Nat) : Alike (declaration limit) (declaration limit) c := by
  refine alike_seesKeyword (fun _ => ?_) fun _ => ?_
  · exact alike_variableDeclaration.andThen fun _ _ => alike_pure _
  refine alike_seesKeyword (fun _ => ?_) fun _ => ?_
  · exact alike_mappingDeclaration.andThen fun _ _ => alike_pure _
  refine alike_seesKeyword (fun _ => ?_) fun _ => alike_fail _
  exact (alike_functionDeclaration limit).andThen fun _ _ => alike_pure _

theorem alike_declarationsWithin (limit bound bound' : Nat) (c : Cursor)
    (h : c.visible.length < bound) (h' : c.visible.length < bound') :
    Alike (declarationsWithin limit bound) (declarationsWithin limit bound') c := by
  induction bound generalizing bound' c with
  | zero => exact absurd h (Nat.not_lt_zero _)
  | succ bound ih =>
    cases bound' with
    | zero => exact absurd h' (Nat.not_lt_zero _)
    | succ bound' =>
      refine alike_sees (fun _ => alike_pure _) fun _ => ?_
      refine (alike_declaration limit).bind (reads_declaration limit) fun first c₁ h₁ => ?_
      obtain ⟨n, -, ts, h₁, hfirst⟩ := h₁
      -- A declaration begins with a keyword, so it is not empty.
      have hpos : 0 < ts.length := by
        cases hfirst <;> exact Nat.succ_pos _
      rw [h₁, List.length_append] at h h'
      exact (ih bound' c₁ (by omega) (by omega)).andThen fun _ _ => alike_pure _

/-- A whole contract. That it is followed by the end of the input is read too. -/
theorem alike_contract (limit : Nat) : Alike (contract limit) (contract limit) c := by
  refine (alike_expectKeyword _).andThen fun _ c₁ => ?_
  refine (alike_expectName _).andThen fun name c₂ => ?_
  refine (alike_expect _).andThen fun _ c₃ => ?_
  have hlength := length_visible_lt c₃
  refine alike_remaining (Alike.andThen ?_ fun ds c₄ => ?_)
  · exact alike_declarationsWithin limit _ _ c₃ hlength.1 hlength.2
  · exact (alike_expect _).andThen fun _ _ => (alike_expect _).andThen fun _ _ => alike_pure _

end Reader

/-- What is read, or why nothing is, does not depend on the tokens after the end of the input. -/
theorem Contract.parse_throughEnd (tokens : List Located) (limit : Nat) :
    Contract.parse (Token.throughEnd tokens) limit = Contract.parse tokens limit := by
  have halike : Reader.contract limit ⟨Token.throughEnd tokens, .start⟩ = _ :=
    Reader.alike_contract limit (c := ⟨tokens, .start⟩)
  rw [parse, parse, halike]
  cases Reader.contract limit ⟨tokens, .start⟩ with
  | error e => rfl
  | ok result => rfl

end Covenant
