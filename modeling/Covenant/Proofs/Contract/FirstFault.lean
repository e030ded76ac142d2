import Covenant.Proofs.Contract.Prompt
import Covenant.Proofs.Token.Split

/-!
# The first impossible token

Where no contract is read, the failure is at the first token with which the tokens before it cannot
go on. The readers of statements, declarations and contracts are prompt, like those of expressions.
What they have consumed begins something that the grammar writes within the limit on nesting: a part
that is missing is made up, a block as an empty one. That takes a level, and there is always one
left, since there are more levels than tokens.

* There is one lemma for each reader from assignments to contracts.
* `Contract.Viable` and `Contract.Impossible` are about tokens at the front of lists that are read.
* `Contract.parse_fails_at_first_impossible_token` puts a failure between the two.
-/

namespace Covenant

namespace Grammar

/-- What is written with at most so many levels. -/
def Within {α : Type} (written : Nat → List Token → α → Prop) (levels : Nat) (ts : List Token)
    (a : α) : Prop :=
  ∃ n ≤ levels, written n ts a

/-- The block that a missing one is made up as. -/
theorem block_empty : Block Apart 1 [.opens .brace, .closes .brace] [] := .mk .nil

/-- A name to make up a part with. -/
theorem name_x : Name "x" := Keyword.isReserved_eq_false_iff.1 (by decide)

end Grammar

namespace Reader

open Grammar (Apart Begins Within)

variable {α : Type} {c d : Cursor}

/-! ### Statements -/

theorem reads_expression_spans : Reads expression c (Spans Grammar.Expression c) :=
  reads_expression.imp fun _ _ h => h.1

/-- An assignment. A value that is missing is made up as `0`. -/
theorem prompt_assignment : Prompt assignment assignment c d (Begins Grammar.Assignment) := by
  refine prompt_expression.spans ?_ reads_expression_spans fun target c₁ d₁ ts _ htarget => ?_
  · rintro ts ⟨us, target, htarget⟩
    exact ⟨us ++ [.assign, .number "0"], _,
      by simpa using Grammar.Assignment.mk htarget Grammar.expression_zero⟩
  refine prompt_expect_then rfl ?_ fun c₂ d₂ _ => ?_
  · exact ⟨[.assign, .number "0"], _,
      by simpa using Grammar.Assignment.mk htarget Grammar.expression_zero⟩
  refine prompt_expression.then_pure ?_
  rintro us ⟨vs, value, hvalue⟩
  exact ⟨vs, _, by simpa using Grammar.Assignment.mk htarget hvalue⟩

/-- A local variable. Its name is made up too, if it is missing. -/
theorem prompt_localVariable (hpeek : c.peek = Keyword.var.token) :
    Prompt localVariable localVariable c d (Begins Grammar.LocalVariable) := by
  refine prompt_advance_then hpeek rfl fun c₁ d₁ _ => ?_
  refine prompt_expectName_then ?_ rfl fun name c₂ d₂ hname _ => ?_
  · exact ⟨[.ident "x", .assign, .number "0"], _,
      .mk Grammar.name_x .none Grammar.expression_zero⟩
  -- What comes behind the type is the same without one.
  have hrest : ∀ (ts : List Token) (c₃ d₃ : Cursor), Grammar.Annotation ts →
      Prompt (do expect .assign; let value ← expression; return (⟨name, value⟩ : LocalVariable))
        (do expect .assign; let value ← expression; return (⟨name, value⟩ : LocalVariable)) c₃ d₃
        fun us => Begins Grammar.LocalVariable
          (Keyword.var.token :: .ident name :: (ts ++ us)) := by
    intro ts c₃ d₃ htype
    refine prompt_expect_then rfl ?_ fun c₄ d₄ _ => ?_
    · exact ⟨[.assign, .number "0"], _,
        by simpa using Grammar.LocalVariable.mk hname htype Grammar.expression_zero⟩
    refine prompt_expression.then_pure ?_
    rintro us ⟨vs, value, hvalue⟩
    exact ⟨vs, _, by simpa using Grammar.LocalVariable.mk hname htype hvalue⟩
  refine prompt_sees (fun hcolon => ?_) fun _ => hrest [] c₂ d₂ .none
  refine prompt_advance_then hcolon rfl fun c₃ d₃ _ => ?_
  refine prompt_expectName_then ?_ rfl fun type c₄ d₄ htype _ => ?_
  · exact ⟨[.ident "x", .assign, .number "0"], _,
      .mk hname (.type Grammar.name_x) Grammar.expression_zero⟩
  exact hrest [.colon, .ident type] c₄ d₄ (.type htype)

section Statements

variable {readBlock readBlock' : Reader (List Statement)}
  {readChained readChained' : Reader Statement} {levels : Nat}

/-- Blocks of at most so many levels, where there are more levels than tokens. -/
def PromptBlocks (readBlock readBlock' : Reader (List Statement)) (levels : Nat) : Prop :=
  ∀ c d, c.visible.length < levels →
    Prompt readBlock readBlock' c d (Begins (Within (Grammar.Block Apart) levels))

/-- Branches after `else`, which count one level more. -/
def PromptChained (readChained readChained' : Reader Statement) (levels : Nat) : Prop :=
  ∀ c d, c.peek = Keyword.if_.token → c.visible.length < levels →
    Prompt readChained readChained' c d
      (Begins fun ts s => ∃ n, n + 1 ≤ levels ∧ Grammar.Branch Apart n ts s)

/-- What spans tokens with at most so many levels. -/
theorem spans_within {written : Nat → List Token → α → Prop} {a : α} {c' : Cursor}
    (h : ∃ n ≤ levels, Spans (written n) c a c') : Spans (Within written levels) c a c' := by
  obtain ⟨n, hn, ts, hts, hwritten⟩ := h
  exact ⟨ts, hts, n, hn, hwritten⟩

/-- A branch. The levels that are left are more than the tokens that are left, since each step
consumes one. -/
theorem prompt_branch (hblock : PromptBlocks readBlock readBlock' levels)
    (hchained : PromptChained readChained readChained' levels)
    (hreads : ReadsBlocks readBlock levels) (hpeek : c.peek = Keyword.if_.token)
    (hlevels : c.visible.length ≤ levels) :
    Prompt (branch readBlock readChained) (branch readBlock' readChained') c d
      (Begins (Within (Grammar.Branch Apart) levels)) := by
  refine prompt_advance_then hpeek rfl fun c₁ d₁ h₁ => ?_
  -- The keyword has been consumed, so there is a level for a block that is made up.
  rw [h₁, List.length_cons] at hlevels
  refine prompt_expression.spans ?_ reads_expression_spans
    fun condition c₂ d₂ ts h₂ hcondition => ?_
  · rintro ts ⟨us, condition, hcondition⟩
    exact ⟨us ++ [.opens .brace, .closes .brace], _, 1, by omega,
      by simpa using Grammar.Branch.single hcondition Grammar.block_empty⟩
  rw [h₂, List.length_append] at hlevels
  refine (hblock c₂ d₂ (by omega)).spans ?_ ((hreads c₂).imp fun _ _ => spans_within)
    fun body c₃ d₃ us h₃ hbody => ?_
  · rintro us ⟨vs, body, n, hn, hbody⟩
    exact ⟨vs, _, n, hn, by simpa using Grammar.Branch.single hcondition hbody⟩
  obtain ⟨n, hn, hbody⟩ := hbody
  rw [h₃, List.length_append] at hlevels
  -- Without `else` the branch is complete.
  refine prompt_seesKeyword (fun helse => ?_) fun _ => prompt_pure _
  refine prompt_advance_then helse rfl fun c₄ d₄ h₄ => ?_
  rw [h₄, List.length_cons] at hlevels
  refine prompt_seesKeyword (fun hif => ?_) fun _ => ?_
  · refine (hchained c₄ d₄ hif (by omega)).then_pure ?_
    rintro vs ⟨ws, next, m, hm, hnext⟩
    exact ⟨ws, _, max n (m + 1), by omega,
      by simpa using Grammar.Branch.chained hcondition hbody hnext⟩
  · refine (hblock c₄ d₄ (by omega)).then_pure ?_
    rintro vs ⟨ws, elseBody, m, hm, helseBody⟩
    exact ⟨ws, _, max n m, by omega,
      by simpa using Grammar.Branch.double hcondition hbody helseBody⟩

/-- A loop, which is made up from wherever it is broken off. -/
theorem prompt_loop (hblock : PromptBlocks readBlock readBlock' levels)
    (hpeek : c.peek = Keyword.for_.token) (hlevels : c.visible.length ≤ levels) :
    Prompt (loop readBlock) (loop readBlock') c d
      (Begins (Within (Grammar.Statement Apart) levels)) := by
  refine prompt_advance_then hpeek rfl fun c₁ d₁ h₁ => ?_
  rw [h₁, List.length_cons] at hlevels
  -- Of a loop that is not read to its end the rest is made up, with an empty block.
  have hloop : ∀ {ts us vs : List Token} {start : LocalVariable} {condition : Expression}
      {step : Assignment}, Grammar.LocalVariable ts start → Grammar.Expression us condition →
      Grammar.Assignment vs step → Within (Grammar.Statement Apart) levels
        (Keyword.for_.token :: (ts ++ .semicolon :: (us ++ .semicolon :: (vs
          ++ [.opens .brace, .closes .brace])))) (.loop start condition step []) :=
    fun hstart hcondition hstep => ⟨1, by omega,
      by simpa using Grammar.Statement.loop hstart hcondition hstep Grammar.block_empty⟩
  have hzero := Grammar.expression_zero
  have hstep : Grammar.Assignment [.number "0", .assign, .number "0"] _ := .mk hzero hzero
  have hvariable : Grammar.LocalVariable [Keyword.var.token, .ident "x", .assign, .number "0"] _ :=
    .mk Grammar.name_x .none hzero
  have hwhole := hloop hvariable hzero hstep
  refine prompt_seesKeyword (fun hvar => ?_) fun _ => prompt_fail_unsigned rfl ⟨_, _, hwhole⟩
  refine (prompt_localVariable hvar).spans ?_ ((reads_localVariable hvar).imp fun _ _ h => h.1)
    fun start c₂ d₂ ts h₂ hstart => ?_
  · rintro ts ⟨us, start, hstart⟩
    exact ⟨us ++ .semicolon :: [.number "0"] ++ .semicolon :: [.number "0", .assign, .number "0"]
      ++ [.opens .brace, .closes .brace], _, by simpa using hloop hstart hzero hstep⟩
  refine prompt_expect_then rfl ?_ fun c₃ d₃ h₃ => ?_
  · exact ⟨.semicolon :: [.number "0"] ++ .semicolon :: [.number "0", .assign, .number "0"]
      ++ [.opens .brace, .closes .brace], _, by simpa using hloop hstart hzero hstep⟩
  refine prompt_expression.spans ?_ reads_expression_spans
    fun condition c₄ d₄ us h₄ hcondition => ?_
  · rintro us ⟨vs, condition, hcondition⟩
    exact ⟨vs ++ .semicolon :: [.number "0", .assign, .number "0"]
      ++ [.opens .brace, .closes .brace], _, by simpa using hloop hstart hcondition hstep⟩
  refine prompt_expect_then rfl ?_ fun c₅ d₅ h₅ => ?_
  · exact ⟨.semicolon :: [.number "0", .assign, .number "0"] ++ [.opens .brace, .closes .brace], _,
      by simpa using hloop hstart hcondition hstep⟩
  refine prompt_assignment.spans ?_ (reads_assignment.imp fun _ _ h => h.1)
    fun step c₆ d₆ vs h₆ hstep => ?_
  · rintro vs ⟨ws, step, hstep⟩
    exact ⟨ws ++ [.opens .brace, .closes .brace], _,
      by simpa using hloop hstart hcondition hstep⟩
  have hshorter : c₆.visible.length < levels := by
    rw [h₂, h₃, h₄, h₅, h₆] at hlevels
    simp only [List.length_append, List.length_cons] at hlevels
    omega
  refine (hblock c₆ d₆ hshorter).then_pure ?_
  rintro ws ⟨more, body, n, hn, hbody⟩
  exact ⟨more, _, n, hn, by simpa using Grammar.Statement.loop hstart hcondition hstep hbody⟩

/-- A statement. An assignment is what is left when no keyword comes first, so the failure of any
other statement is that of an assignment. -/
theorem prompt_statement (hblock : PromptBlocks readBlock readBlock' levels)
    (hchained : PromptChained readChained readChained' levels)
    (hreads : ReadsBlocks readBlock levels) (hlevels : c.visible.length ≤ levels) :
    Prompt (statement readBlock readChained) (statement readBlock' readChained') c d
      (Begins (Within (Grammar.Statement Apart) levels)) := by
  refine prompt_seesKeyword (fun hreturn => ?_) fun _ => ?_
  · refine prompt_advance_then hreturn rfl fun c₁ d₁ _ => prompt_expression.then_pure ?_
    rintro ts ⟨us, value, hvalue⟩
    exact ⟨us, _, 0, Nat.zero_le _, .returns hvalue⟩
  refine prompt_seesKeyword (fun hif => ?_) fun _ => ?_
  · refine (prompt_branch hblock hchained hreads hif hlevels).imp ?_
    rintro ts ⟨us, s, n, hn, hbranch⟩
    exact ⟨us, s, n, hn, .branch hbranch⟩
  refine prompt_seesKeyword (fun hfor => prompt_loop hblock hfor hlevels) fun _ => ?_
  refine prompt_seesKeyword (fun hvar => ?_) fun _ => ?_
  · refine (prompt_localVariable hvar).then_pure ?_
    rintro ts ⟨us, v, hv⟩
    exact ⟨us, _, 0, Nat.zero_le _, .declare hv⟩
  · refine prompt_assignment.then_pure ?_
    rintro ts ⟨us, a, ha⟩
    exact ⟨us, _, 0, Nat.zero_le _, .assign ha⟩

end Statements

/-- Tokens that begin with a `-` only if the cursor shows one may follow what the cursor follows. -/
theorem apart_of_front {s : Statement} {t : Token} {ts : List Token} (h : Apart s c.visible)
    (hfront : t = .operator .subtract → c.peek = .operator .subtract) : Apart s (t :: ts) := by
  have hhead : c.visible.head? ≠ some (.operator .subtract) →
      (t :: ts).head? ≠ some (.operator .subtract) := by
    intro hne heq
    refine hne ?_
    rw [Cursor.visible_of_peek (hfront (Option.some.inj heq)) (by simp)]
    rfl
  cases s <;> first | trivial | exact hhead h

/-- Statements up to the closing brace. By induction on the bound. -/
theorem prompt_statementsWithin {next next' : Reader Statement} {levels : Nat}
    (hnext : ∀ c d, c.visible.length ≤ levels →
      Prompt next next' c d (Begins (Within (Grammar.Statement Apart) levels)))
    (hreads : ∀ c, Reads next c fun s c' =>
      ∃ n ≤ levels, Spans (Grammar.Statement Apart n) c s c' ∧ Apart s c'.visible)
    (bound : Nat) (c d : Cursor) (hlevels : c.visible.length ≤ levels) :
    Prompt (statementsWithin next bound) (statementsWithin next' bound) c d
      (Begins (Within (Grammar.Statements Apart) levels)) := by
  have hnil : Begins (Within (Grammar.Statements Apart) levels) [] :=
    ⟨[], [], 0, Nat.zero_le _, .nil⟩
  -- One statement alone is a block, as nothing has to be apart from it.
  have hsingle : ∀ {n : Nat} {ts : List Token} {s : Statement}, n ≤ levels →
      Grammar.Statement Apart n ts s → Within (Grammar.Statements Apart) levels ts [s] := by
    intro n ts s hn hs
    have hapart : Apart s [] := by cases s <;> simp [Apart]
    exact ⟨max n 0, by omega, by simpa using Grammar.Statements.cons hs hapart .nil⟩
  induction bound generalizing c d with
  | zero => exact prompt_fail_unsigned rfl hnil
  | succ bound ih =>
    refine prompt_sees (fun _ => prompt_pure []) fun _ => ?_
    refine prompt_sees (fun _ => prompt_fail_unsigned rfl hnil) fun _ => ?_
    refine (hnext c d hlevels).bind ?_ (hreads c) fun first c₁ d₁ ts hts h₁ _ => ?_
    · rintro ts ⟨us, s, n, hn, hs⟩
      exact ⟨us, [s], hsingle hn hs⟩
    obtain ⟨n, hn, ⟨us, h₁, hfirst⟩, hapart⟩ := h₁
    obtain rfl : ts = us := List.append_cancel_right (hts.symm.trans h₁)
    rw [hts, List.length_append] at hlevels
    -- A `-` at the front of the rest would have been read as part of the statement before it.
    have hrest := (ih c₁ d₁ (by omega)).imp_of_front
      (V := fun us => Begins (Within (Grammar.Statements Apart) levels) (ts ++ us)) ?_
    · exact hrest.then_pure fun _ h => h
    rintro us hfront ⟨vs, rest, m, hm, hrest⟩
    -- Without tokens of its own the rest is made up as none at all.
    cases us with
    | nil => exact ⟨[], [first], by simpa using hsingle hn hfirst⟩
    | cons u us =>
      have hseparated : Apart first (u :: (us ++ vs)) :=
        apart_of_front hapart fun heq => hfront (congrArg some heq)
      exact ⟨vs, first :: rest, max n m, by omega,
        by simpa using Grammar.Statements.cons hfirst hseparated hrest⟩

/-- A block with its braces, if the blocks inside it are prompt. -/
theorem prompt_braced {limit limit' levels levels' : Nat}
    (hblock : PromptBlocks (block limit levels) (block limit' levels') levels)
    (hchained : PromptChained (chainedBranch limit levels) (chainedBranch limit' levels') levels)
    (hlevels : c.visible.length < levels + 1) :
    Prompt (braced (statement (block limit levels) (chainedBranch limit levels)))
      (braced (statement (block limit' levels') (chainedBranch limit' levels'))) c d
      (Begins (Within (Grammar.Block Apart) (levels + 1))) := by
  obtain ⟨hreads, hreadsChained⟩ := reads_block_and_chainedBranch limit levels
  -- The bounds of the two runs are different, and neither is reached.
  have halike : ∀ (limit levels b b' : Nat) (c : Cursor), c.visible.length < b →
      c.visible.length < b' →
      Alike (statementsWithin (statement (block limit levels) (chainedBranch limit levels)) b)
        (statementsWithin (statement (block limit levels) (chainedBranch limit levels)) b') c := by
    intro limit levels
    obtain ⟨hblock, hchained⟩ := alike_block_and_chainedBranch limit levels
    exact alike_statementsWithin (fun c => alike_statement hblock hchained) reads_statement_shorter
  refine prompt_expect_then rfl ?_ fun c₁ d₁ h₁ => ?_
  · exact ⟨_, _, 1, Nat.le_add_left 1 levels, Grammar.block_empty⟩
  rw [h₁, List.length_cons] at hlevels
  refine prompt_remaining ?_
  have hbody := Prompt.bounds_succ (halike limit levels) (halike limit' levels') fun bound =>
    prompt_statementsWithin (fun c d h => prompt_statement hblock hchained hreads h)
      (fun c => reads_statement hreads hreadsChained) bound c₁ d₁ (by omega)
  have hspans := reads_statementsWithin (fun c => reads_statement hreads hreadsChained)
    (c₁.rest.length + 1) c₁
  refine hbody.spans ?_ (hspans.imp fun _ _ => spans_within) fun body c₂ d₂ ts _ hbody => ?_
  · rintro ts ⟨us, body, n, hn, hbody⟩
    exact ⟨us ++ [.closes .brace], _, n + 1, Nat.succ_le_succ hn,
      by simpa using Grammar.Block.mk hbody⟩
  obtain ⟨n, hn, hbody⟩ := hbody
  refine prompt_expect_then rfl ?_ fun _ _ _ => prompt_pure body
  exact ⟨[.closes .brace], _, n + 1, Nat.succ_le_succ hn, by simpa using Grammar.Block.mk hbody⟩

/-- A block of the first run never comes to the end of its levels. One of the second may, and then
that run fails. -/
theorem prompt_block_and_chainedBranch (limit limit' levels levels' : Nat) :
    PromptBlocks (block limit levels) (block limit' levels') levels
      ∧ PromptChained (chainedBranch limit levels) (chainedBranch limit' levels') levels := by
  induction levels generalizing levels' with
  | zero =>
    exact ⟨fun c d h => absurd h (Nat.not_lt_zero _), fun c d _ h => absurd h (Nat.not_lt_zero _)⟩
  | succ levels ih =>
    have hblock : ∀ levels', PromptBlocks (block limit (levels + 1)) (block limit' (levels' + 1))
        (levels + 1) :=
      fun levels' c d h => prompt_braced (ih levels').1 (ih levels').2 h
    have hchained : ∀ levels', PromptChained (chainedBranch limit (levels + 1))
        (chainedBranch limit' (levels' + 1)) (levels + 1) := by
      intro levels' c d hif h
      have hreads := (reads_block_and_chainedBranch limit levels).1
      refine (prompt_branch (ih levels').1 (ih levels').2 hreads hif (Nat.le_of_lt_succ h)).imp ?_
      rintro ts ⟨us, s, n, hn, hbranch⟩
      exact ⟨us, s, n, Nat.succ_le_succ hn, hbranch⟩
    -- The induction is on the levels of the first run, and those of the second are any number.
    cases levels' with
    | zero =>
      exact ⟨fun c d h => (hblock 0 c d h).of_stuck fun x hx => (by cases hx),
        fun c d hif h => (hchained 0 c d hif h).of_stuck fun x hx => (by cases hx)⟩
    | succ levels' => exact ⟨hblock levels', hchained levels'⟩

/-! ### Declarations -/

theorem prompt_variableDeclaration (hpeek : c.peek = Keyword.var.token) :
    Prompt variableDeclaration variableDeclaration c d
      (Begins fun ts v => Grammar.Declaration Apart 0 ts (.variable_ v)) := by
  have hx := Grammar.name_x
  have hzero := Grammar.literal_zero
  refine prompt_advance_then hpeek rfl fun c₁ d₁ _ => ?_
  refine prompt_expectName_then ⟨_, _, .variable_ hx hx hzero⟩ rfl fun name c₂ d₂ hname _ => ?_
  refine prompt_expect_then rfl ⟨_, _, .variable_ hname hx hzero⟩ fun c₃ d₃ _ => ?_
  refine prompt_expectName_then ⟨_, _, .variable_ hname hx hzero⟩ rfl fun type c₄ d₄ htype _ => ?_
  refine prompt_expect_then rfl ⟨_, _, .variable_ hname htype hzero⟩ fun c₅ d₅ _ => ?_
  refine prompt_literal.then_pure ?_
  rintro ts ⟨us, value, hvalue⟩
  exact ⟨us, _, .variable_ hname htype hvalue⟩

/-- The types of a mapping without the closing parentheses. -/
def OpenMappingType (ts : List Token) (types : List String × String) : Prop :=
  Grammar.MappingType (ts ++ List.replicate types.1.length (.closes .paren)) types.1 types.2

/-- The types of a mapping. A missing one is made up as that of a single key. -/
theorem prompt_mappingTypesWithin (bound : Nat) (c d : Cursor) :
    Prompt (mappingTypesWithin bound) (mappingTypesWithin bound) c d (Begins OpenMappingType) := by
  have hx := Grammar.name_x
  have hsingle : ∀ {key value : String}, Grammar.Name key → Grammar.Name value →
      OpenMappingType [.opens .paren, .ident key, .fatArrow, .ident value] ([key], value) :=
    fun hkey hvalue => .single hkey hvalue
  induction bound generalizing c d with
  | zero => exact prompt_fail_unsigned rfl ⟨_, _, hsingle hx hx⟩
  | succ bound ih =>
    refine prompt_expect_then rfl ⟨_, _, hsingle hx hx⟩ fun c₁ d₁ _ => ?_
    refine prompt_expectName_then ⟨_, _, hsingle hx hx⟩ rfl fun key c₂ d₂ hkey _ => ?_
    refine prompt_expect_then rfl ⟨_, _, hsingle hkey hx⟩ fun c₃ d₃ _ => ?_
    refine prompt_seesKeyword (fun hmapping => ?_) fun _ => ?_
    · refine prompt_advance_then hmapping rfl fun c₄ d₄ _ => ?_
      refine (ih c₄ d₄).then_pure ?_
      rintro ts ⟨us, ⟨keys, value⟩, hinner⟩
      have hnested := Grammar.MappingType.nested hkey hinner
      exact ⟨us, (key :: keys, value),
        by simpa [OpenMappingType, List.replicate_succ'] using hnested⟩
    · refine (prompt_expectName ?_ fun _ => rfl).then_pure fun _ h => h
      exact ⟨_, _, hsingle hkey hx⟩

/-- Closing parentheses, of which fewer than the number asked for may have been read. -/
theorem prompt_closingParens (count : Nat) (c d : Cursor) {V : List Token → Prop}
    (hV : ∀ k < count, V (List.replicate k (.closes .paren))) :
    Prompt (closingParens count) (closingParens count) c d V := by
  induction count generalizing c d V with
  | zero => exact prompt_pure ()
  | succ count ih =>
    refine prompt_expect_then rfl (hV 0 (Nat.succ_pos _)) fun c₁ d₁ _ => ?_
    exact ih c₁ d₁ fun k hk => hV (k + 1) (Nat.succ_lt_succ hk)

/-- A mapping. As many parentheses are made up as have not been read. -/
theorem prompt_mappingDeclaration (hpeek : c.peek = Keyword.mapping.token) :
    Prompt mappingDeclaration mappingDeclaration c d
      (Begins fun ts m => Grammar.Declaration Apart 0 ts (.mapping m)) := by
  refine prompt_advance_then hpeek rfl fun c₁ d₁ _ => ?_
  refine prompt_remaining ?_
  have htypes := Prompt.bounds_succ alike_mappingTypesWithin alike_mappingTypesWithin fun bound =>
    prompt_mappingTypesWithin bound c₁ d₁
  have hreads : Reads (mappingTypesWithin (c₁.rest.length + 1)) c₁ (Spans OpenMappingType c₁) :=
    reads_mappingTypesWithin _ c₁
  refine htypes.spans ?_ hreads fun types c₂ d₂ ts _ htypes => ?_
  · rintro ts ⟨us, types, htypes⟩
    exact ⟨us ++ List.replicate types.1.length (.closes .paren) ++ [.ident "x"], _,
      by simpa using Grammar.Declaration.mapping htypes Grammar.name_x⟩
  obtain ⟨keys, value⟩ := types
  refine (prompt_closingParens keys.length c₂ d₂ fun k hk => ?_).bind (fun _ h => h)
    (reads_closingParens keys.length c₂) fun _ c₃ d₃ us hus h₃ _ => ?_
  · -- Those that were read and those that are made up are as many as there are key types.
    have hsplit : List.replicate k (Token.closes .paren)
        ++ List.replicate (keys.length - k) (.closes .paren)
        = List.replicate keys.length (.closes .paren) := by
      rw [List.replicate_append_replicate, Nat.add_sub_cancel' (Nat.le_of_lt hk)]
    rw [OpenMappingType, ← hsplit] at htypes
    exact ⟨List.replicate (keys.length - k) (.closes .paren) ++ [.ident "x"], _, by
      simpa only [List.cons_append, List.append_assoc] using
        Grammar.Declaration.mapping htypes Grammar.name_x⟩
  obtain rfl : us = _ := List.append_cancel_right (hus.symm.trans h₃)
  refine (prompt_expectName ?_ fun _ => rfl).then_pure fun _ h => h
  exact ⟨[.ident "x"], _, by simpa using Grammar.Declaration.mapping htypes Grammar.name_x⟩

theorem prompt_parametersWithin (bound : Nat) (c d : Cursor) :
    Prompt (parametersWithin bound) (parametersWithin bound) c d
      (Begins Grammar.ParameterList) := by
  have hx := Grammar.name_x
  induction bound generalizing c d with
  | zero => exact prompt_fail_unsigned rfl ⟨_, _, .last hx hx⟩
  | succ bound ih =>
    refine prompt_expectName_then ⟨_, _, .last hx hx⟩ rfl fun name c₁ d₁ hname _ => ?_
    refine prompt_expect_then rfl ⟨_, _, .last hname hx⟩ fun c₂ d₂ _ => ?_
    refine prompt_expectName_then ⟨_, _, .last hname hx⟩ rfl fun type c₃ d₃ htype _ => ?_
    refine prompt_sees (fun hcomma => ?_) fun _ => prompt_pure _
    refine prompt_advance_then hcomma rfl fun c₄ d₄ _ => ?_
    refine (ih c₄ d₄).then_pure ?_
    rintro ts ⟨us, ps, hps⟩
    exact ⟨us, _, .more hname htype hps⟩

theorem prompt_parameters : Prompt parameters parameters c d (Begins Grammar.Parameters) := by
  refine prompt_sees (fun _ => prompt_pure []) fun _ => prompt_remaining ?_
  refine (Prompt.bounds_succ alike_parametersWithin alike_parametersWithin fun bound =>
    prompt_parametersWithin bound c d).imp ?_
  rintro ts ⟨us, ps, hps⟩
  exact ⟨us, ps, .some hps⟩

theorem prompt_returnType : Prompt returnType returnType c d (Begins Grammar.ReturnType) := by
  refine prompt_sees (fun harrow => ?_) fun _ => prompt_pure none
  refine prompt_advance_then harrow rfl fun c₁ d₁ _ => ?_
  exact (prompt_expectName ⟨_, _, .some Grammar.name_x⟩ fun _ => rfl).then_pure fun _ h => h

/-- A function. What is missing is made up with an empty body, which is one level. -/
theorem prompt_functionDeclaration (limit limit' : Nat) (hpeek : c.peek = Keyword.func.token)
    (hlimit : c.visible.length ≤ limit) :
    Prompt (functionDeclaration limit) (functionDeclaration limit') c d
      (Begins (Within (fun n ts f => Grammar.Declaration Apart n ts (.function f)) limit)) := by
  have hx := Grammar.name_x
  refine prompt_advance_then hpeek rfl fun c₁ d₁ h₁ => ?_
  rw [h₁, List.length_cons] at hlimit
  -- Of a function that is not read to its end the rest is made up, with an empty body.
  have hwhole : ∀ {ts us : List Token} {name : String} {ps : List Parameter}
      {type : Option String}, Grammar.Name name → Grammar.Parameters ts ps →
      Grammar.ReturnType us type →
      Within (fun n ts f => Grammar.Declaration Apart n ts (.function f)) limit
        (Keyword.func.token :: .ident name :: .opens .paren :: (ts ++ .closes .paren
          :: (us ++ [.opens .brace, .closes .brace]))) ⟨name, ps, type, []⟩ :=
    fun hname hps htype => ⟨1, by omega,
      by simpa using Grammar.Declaration.function hname hps htype Grammar.block_empty⟩
  have hnone := hwhole hx .none .none
  refine prompt_expectName_then ⟨_, _, hnone⟩ rfl fun name c₂ d₂ hname h₂ => ?_
  have hnamed := hwhole hname .none .none
  refine prompt_expect_then rfl ⟨_, _, hnamed⟩ fun c₃ d₃ h₃ => ?_
  refine prompt_parameters.spans ?_ reads_parameters fun ps c₄ d₄ ts h₄ hps => ?_
  · rintro ts ⟨us, ps, hps⟩
    exact ⟨us ++ [.closes .paren, .opens .brace, .closes .brace], _,
      by simpa using hwhole hname hps .none⟩
  refine prompt_expect_then rfl ?_ fun c₅ d₅ h₅ => ?_
  · exact ⟨[.closes .paren, .opens .brace, .closes .brace], _,
      by simpa using hwhole hname hps .none⟩
  refine prompt_returnType.spans ?_ reads_returnType fun type c₆ d₆ us h₆ htype => ?_
  · rintro us ⟨vs, type, htype⟩
    exact ⟨vs ++ [.opens .brace, .closes .brace], _, by simpa using hwhole hname hps htype⟩
  -- More tokens than one have been consumed before the body.
  have hshorter : c₆.visible.length < limit := by
    rw [h₂, h₃, h₄, h₅, h₆] at hlimit
    simp only [List.length_append, List.length_cons] at hlimit
    omega
  refine ((prompt_block_and_chainedBranch limit limit' limit limit').1 c₆ d₆ hshorter).then_pure ?_
  rintro vs ⟨ws, body, n, hn, hbody⟩
  exact ⟨ws, _, n, hn, by simpa using Grammar.Declaration.function hname hps htype hbody⟩

/-- A declaration. Where no keyword comes first, a storage variable might have. -/
theorem prompt_declaration (limit limit' : Nat) (hlimit : c.visible.length ≤ limit) :
    Prompt (declaration limit) (declaration limit') c d
      (Begins (Within (Grammar.Declaration Apart) limit)) := by
  refine prompt_seesKeyword (fun hvar => ?_) fun _ => ?_
  · refine (prompt_variableDeclaration hvar).then_pure ?_
    rintro ts ⟨us, v, hv⟩
    exact ⟨us, _, 0, Nat.zero_le _, hv⟩
  refine prompt_seesKeyword (fun hmapping => ?_) fun _ => ?_
  · refine (prompt_mappingDeclaration hmapping).then_pure ?_
    rintro ts ⟨us, m, hm⟩
    exact ⟨us, _, 0, Nat.zero_le _, hm⟩
  refine prompt_seesKeyword (fun hfunc => ?_) fun _ => ?_
  · refine (prompt_functionDeclaration limit limit' hfunc hlimit).then_pure ?_
    rintro ts ⟨us, f, n, hn, hf⟩
    exact ⟨us, _, n, hn, hf⟩
  · have hx := Grammar.name_x
    exact prompt_fail_unsigned rfl
      ⟨_, _, 0, Nat.zero_le _, .variable_ hx hx Grammar.literal_zero⟩

/-- Declarations up to the closing brace. By induction on the bound. -/
theorem prompt_declarationsWithin (limit limit' bound : Nat) (c d : Cursor)
    (hlimit : c.visible.length ≤ limit) :
    Prompt (declarationsWithin limit bound) (declarationsWithin limit' bound) c d
      (Begins (Within (Grammar.Declarations Apart) limit)) := by
  induction bound generalizing c d with
  | zero => exact prompt_fail_unsigned rfl ⟨[], [], 0, Nat.zero_le _, .nil⟩
  | succ bound ih =>
    refine prompt_sees (fun _ => prompt_pure []) fun _ => ?_
    refine (prompt_declaration limit limit' hlimit).spans ?_
      ((reads_declaration limit).imp fun _ _ => spans_within) fun first c₁ d₁ ts h₁ hfirst => ?_
    · rintro ts ⟨us, first, n, hn, hfirst⟩
      exact ⟨us, [first], max n 0, by omega, by simpa using Grammar.Declarations.cons hfirst .nil⟩
    obtain ⟨n, hn, hfirst⟩ := hfirst
    rw [h₁, List.length_append] at hlimit
    refine (ih c₁ d₁ (by omega)).then_pure ?_
    rintro us ⟨vs, rest, m, hm, hrest⟩
    exact ⟨vs, first :: rest, max n m, by omega,
      by simpa using Grammar.Declarations.cons hfirst hrest⟩

/-- A contract. The end of the input has to come behind it, and nothing can be made up there. -/
theorem prompt_contract (limit limit' : Nat) (hlimit : c.visible.length ≤ limit) :
    Prompt (contract limit) (contract limit') c d
      (Begins (Within (Grammar.Contract Apart) limit)) := by
  -- Up to its opening brace a contract is made up without declarations.
  have hempty : ∀ {name : String}, Grammar.Name name → Within (Grammar.Contract Apart) limit
      [Keyword.contract.token, .ident name, .opens .brace, .closes .brace] ⟨name, []⟩ :=
    fun hname => ⟨0, Nat.zero_le _, .mk hname .nil⟩
  have hx := hempty Grammar.name_x
  refine prompt_expectKeyword_then ⟨_, _, hx⟩ fun c₁ d₁ h₁ => ?_
  refine prompt_expectName_then ⟨_, _, hx⟩ rfl fun name c₂ d₂ hname h₂ => ?_
  refine prompt_expect_then rfl ⟨_, _, hempty hname⟩ fun c₃ d₃ h₃ => ?_
  refine prompt_remaining ?_
  have hshorter : c₃.visible.length ≤ limit := by
    rw [h₁, h₂, h₃] at hlimit
    simp only [List.length_cons] at hlimit
    omega
  have hdeclarations := Prompt.bounds_succ (alike_declarationsWithin limit)
    (alike_declarationsWithin limit') fun bound =>
      prompt_declarationsWithin limit limit' bound c₃ d₃ hshorter
  refine hdeclarations.spans ?_
    ((reads_declarationsWithin limit _ c₃).imp fun _ _ => spans_within)
    fun ds c₄ d₄ ts _ hds => ?_
  · rintro ts ⟨us, ds, n, hn, hds⟩
    exact ⟨us ++ [.closes .brace], _, n, hn, by simpa using Grammar.Contract.mk hname hds⟩
  obtain ⟨n, hn, hds⟩ := hds
  refine prompt_expect_then rfl ?_ fun c₅ d₅ _ => ?_
  · exact ⟨[.closes .brace], _, n, hn, by simpa using Grammar.Contract.mk hname hds⟩
  refine (prompt_expect_end ?_).then_pure fun _ h => h
  exact ⟨[], _, n, hn, by simpa using Grammar.Contract.mk hname hds⟩

end Reader

/-! ### The end of the input -/

namespace Grammar

variable {separated : Separation} {n : Nat} {ts : List Token}

theorem Literal.eof_not_mem {value : Covenant.Literal} (h : Literal ts value) : .eof ∉ ts := by
  cases h <;> simp [Keyword.token]

mutual

/-- Operands and keys are written without it, by recursion on the derivation. -/
theorem Term.eof_not_mem {ts : List Token} {t : Covenant.Term} : Term ts t → .eof ∉ ts
  | .literal hvalue => hvalue.eof_not_mem
  | .ident _ => by simp
  | .index _ hkeys => by simp [Keys.eof_not_mem hkeys]

theorem Keys.eof_not_mem {ts : List Token} {keys : List Covenant.Term} : Keys ts keys → .eof ∉ ts
  | .nil => List.not_mem_nil
  | .cons hkey hkeys => by simp [Term.eof_not_mem hkey, Keys.eof_not_mem hkeys]

end

theorem Expression.eof_not_mem {e : Covenant.Expression} (h : Expression ts e) : .eof ∉ ts := by
  obtain ⟨hfirst, hrest⟩ := h
  have hoperands : ∀ {ts pairs}, Operands ts pairs → .eof ∉ ts := by
    intro ts pairs h
    induction h with
    | nil => exact List.not_mem_nil
    | cons hoperand _ ih => simp [hoperand.eof_not_mem, ih]
  simp [hfirst.eof_not_mem, hoperands hrest]

theorem Assignment.eof_not_mem {a : Covenant.Assignment} (h : Assignment ts a) : .eof ∉ ts := by
  obtain ⟨htarget, hvalue⟩ := h
  simp [htarget.eof_not_mem, hvalue.eof_not_mem]

theorem LocalVariable.eof_not_mem {v : Covenant.LocalVariable} (h : LocalVariable ts v) :
    .eof ∉ ts := by
  obtain ⟨_, htype, hvalue⟩ := h
  cases htype <;> simp [Keyword.token, hvalue.eof_not_mem]

mutual

/-- Statements, branches and blocks are written without it, by recursion on the derivation. -/
theorem Statement.eof_not_mem {n : Nat} {ts : List Token} {s : Covenant.Statement} :
    Statement separated n ts s → .eof ∉ ts
  | .returns hvalue => by simp [Keyword.token, hvalue.eof_not_mem]
  | .assign ha => ha.eof_not_mem
  | .declare hv => hv.eof_not_mem
  | .branch hbranch => Branch.eof_not_mem hbranch
  | .loop hstart hcondition hstep hbody => by
    simp [Keyword.token, hstart.eof_not_mem, hcondition.eof_not_mem, hstep.eof_not_mem,
      Block.eof_not_mem hbody]

theorem Branch.eof_not_mem {n : Nat} {ts : List Token} {s : Covenant.Statement} :
    Branch separated n ts s → .eof ∉ ts
  | .single hcondition hbody => by
    simp [Keyword.token, hcondition.eof_not_mem, Block.eof_not_mem hbody]
  | .double hcondition hbody helse => by
    simp [Keyword.token, hcondition.eof_not_mem, Block.eof_not_mem hbody, Block.eof_not_mem helse]
  | .chained hcondition hbody hnext => by
    simp [Keyword.token, hcondition.eof_not_mem, Block.eof_not_mem hbody, Branch.eof_not_mem hnext]

theorem Block.eof_not_mem {n : Nat} {ts : List Token} {body : List Covenant.Statement} :
    Block separated n ts body → .eof ∉ ts
  | .mk hbody => by simp [Statements.eof_not_mem hbody]

theorem Statements.eof_not_mem {n : Nat} {ts : List Token} {body : List Covenant.Statement} :
    Statements separated n ts body → .eof ∉ ts
  | .nil => List.not_mem_nil
  | .cons hfirst _ hrest => by simp [Statement.eof_not_mem hfirst, Statements.eof_not_mem hrest]

end

theorem MappingType.eof_not_mem {keys : List String} {value : String}
    (h : MappingType ts keys value) : .eof ∉ ts := by
  induction h with
  | single _ _ => simp
  | nested _ _ ih => simp [Keyword.token, ih]

theorem Parameters.eof_not_mem {ps : List Parameter} (h : Parameters ts ps) : .eof ∉ ts := by
  cases h with
  | none => exact List.not_mem_nil
  | some hps =>
    induction hps with
    | last _ _ => simp
    | more _ _ _ ih => simp [ih]

theorem Declaration.eof_not_mem {d : Covenant.Declaration} (h : Declaration separated n ts d) :
    .eof ∉ ts := by
  cases h with
  | variable_ _ _ hvalue => simp [Keyword.token, hvalue.eof_not_mem]
  | mapping htypes _ => simp [Keyword.token, htypes.eof_not_mem]
  | function _ hparameters htype hbody =>
    cases htype <;> simp [Keyword.token, hparameters.eof_not_mem, hbody.eof_not_mem]

/-- The grammar does not write the end of the input. -/
theorem Contract.eof_not_mem {c : Covenant.Contract} (h : Contract separated n ts c) :
    .eof ∉ ts := by
  obtain ⟨_, hdeclarations⟩ := h
  have hall : ∀ {n ts ds}, Declarations separated n ts ds → .eof ∉ ts := by
    intro n ts ds h
    induction h with
    | nil => exact List.not_mem_nil
    | cons hfirst _ ih => simp [hfirst.eof_not_mem, ih]
  simp [Keyword.token, hall hdeclarations]

end Grammar

/-! ### Whole contracts -/

namespace Contract

/-- Tokens at the front of a list that is read as a contract, and that ends where the input ends. -/
def Viable (limit : Nat) (ts : List Token) : Prop :=
  ∃ tokens contract, Token.Ended tokens ∧ parse tokens limit = .ok contract
    ∧ ts <+: tokens.map Located.token

/-- Tokens at the front of no list that is read as a contract, whatever the limit. -/
def Impossible (ts : List Token) : Prop :=
  ∀ limit tokens contract, parse tokens limit = .ok contract → ¬ ts <+: tokens.map Located.token

end Contract

namespace Token

/-- Nothing comes after the end of a list that ends where the input ends. -/
theorem throughEnd_of_ended {tokens : List Located} (h : Ended tokens) :
    throughEnd tokens = tokens := by
  obtain ⟨items, last, rfl, hlast, hitems⟩ := h
  induction items with
  | nil => exact if_pos hlast
  | cons item items ih =>
    rw [List.forall_mem_cons] at hitems
    rw [List.cons_append, throughEnd, if_neg hitems.1, ih hitems.2]

/-- All tokens of such a list but the last are before the end. -/
theorem length_beforeEnd_of_ended {tokens : List Located} (h : Ended tokens) :
    tokens.length = (beforeEnd tokens).length + 1 := by
  obtain ⟨items, last, rfl, hlast, hitems⟩ := h
  rw [beforeEnd, List.map_append, List.takeWhile_append_of_pos]
  · simp [hlast]
  · intro t ht
    obtain ⟨item, hitem, rfl⟩ := List.mem_map.1 ht
    exact bne_iff_ne.2 (hitems item hitem)

end Token

/-- What the grammar writes begins with tokens that are viable. -/
theorem Contract.viable_of_begins {limit : Nat} {ts : List Token}
    (h : Grammar.Begins (Grammar.Within (Grammar.Contract Grammar.Apart) limit) ts) :
    Viable limit ts := by
  obtain ⟨us, contract, n, hn, hcontract⟩ := h
  -- The tokens are given places, which do not matter to a parser.
  have hmap : ((ts ++ us).map fun t => (⟨t, .start⟩ : Located)).map Located.token = ts ++ us := by
    rw [List.map_map]
    exact List.map_id _
  have hended : ∀ item ∈ (ts ++ us).map fun t => (⟨t, .start⟩ : Located), item.token ≠ .eof := by
    intro item hitem heof
    obtain ⟨t, ht, rfl⟩ := List.mem_map.1 hitem
    exact hcontract.eof_not_mem (heof ▸ ht)
  refine ⟨((ts ++ us).map fun t => ⟨t, .start⟩) ++ [⟨.eof, .start⟩], contract,
    ⟨_, _, rfl, rfl, hended⟩, parse_of_grammar ?_ hn, ?_⟩
  · -- The one end of the input is the one that was added.
    have hbefore : Token.beforeEnd (((ts ++ us).map fun t => ⟨t, .start⟩) ++ [⟨.eof, .start⟩])
        = ts ++ us := by
      rw [Token.beforeEnd, List.map_append, hmap, List.takeWhile_append_of_pos]
      · simp
      · intro t ht
        exact bne_iff_ne.2 fun heof => hcontract.eof_not_mem (heof ▸ ht)
    rwa [hbefore]
  · rw [List.map_append, hmap, List.append_assoc]
    exact List.prefix_append ts _

/-- Where lists of tokens begin in the same way, cursors before them agree. -/
theorem Cursor.agree_of_prefix {items tokens : List Located} {k : Nat} {first second : Position}
    (hk : k ≤ items.length)
    (h : (items.take k).map Located.token <+: tokens.map Located.token) :
    Cursor.Agree k ⟨items, first⟩ ⟨tokens, second⟩ := by
  have htake := List.prefix_iff_eq_take.1 h
  rw [List.length_map, List.length_take_of_le hk, List.map_take] at htake
  unfold Cursor.Agree Cursor.visible Token.beforeEnd
  rw [List.take_takeWhile, List.take_takeWhile, htake]

/-- A list without a place twice has one token at a place. -/
theorem Token.before_eq_of_position_eq {before before' after after' : List Located}
    {t t' : Located} (h : before ++ t :: after = before' ++ t' :: after')
    (hplaces : (before ++ t :: after).Pairwise fun a b : Located => a.position ≠ b.position)
    (ht : t.position = t'.position) : before = before' := by
  -- If one part were longer, it would have the other's token in it.
  rcases List.append_eq_append_iff.1 h with ⟨more, hbefore, hmore⟩ | ⟨more, hbefore, hmore⟩
  · cases more with
    | nil => rw [hbefore, List.append_nil]
    | cons first more =>
      obtain ⟨rfl, rfl⟩ := List.cons.inj hmore
      have hlater := List.rel_of_pairwise_cons (List.pairwise_append.1 hplaces).2.1
        (List.mem_append_right more List.mem_cons_self)
      exact absurd ht hlater
  · cases more with
    | nil => rw [hbefore, List.append_nil]
    | cons first more =>
      obtain ⟨rfl, rfl⟩ := List.cons.inj hmore
      have hearlier := (List.pairwise_append.1 hplaces).2.2 t'
        (by rw [hbefore]; exact List.mem_append_right _ List.mem_cons_self) t List.mem_cons_self
      exact absurd ht.symm hearlier

/-- A failure stands at a token of a list that ends where the input ends. -/
theorem Reader.Fault.exists_token {α : Type} {s : Reader α} {tokens before : List Located}
    {d c' : Cursor} {V : List Token → Prop} {e : ParseError}
    (h : Reader.Fault s ⟨tokens, .start⟩ d V e before c') (hended : Token.Ended tokens) :
    ∃ t after, tokens = before ++ t :: after ∧ e.position = t.position ∧ e.found = t.token := by
  have hsplit : tokens = before ++ c'.cut.rest :=
    (Token.throughEnd_of_ended hended).symm.trans h.passes.1
  obtain ⟨what, hstands⟩ := h.stands
  cases hrest : c'.cut.rest with
  | nil =>
    -- The end of the input is in the list, and not among the consumed tokens.
    obtain ⟨items, last, hitems, hlast, -⟩ := hended
    rw [hrest, List.append_nil] at hsplit
    refine absurd hlast (h.passes.2 last ?_)
    rw [← hsplit, hitems]
    simp
  | cons t after =>
    refine ⟨t, after, by rw [hsplit, hrest], ?_⟩
    rw [hstands, ← c'.cut_cases.2.2.1 what, Cursor.failure, hrest]
    exact ⟨rfl, rfl⟩

/-- A parse fails where the reader of contracts fails. -/
theorem Contract.run_of_parse_error {tokens : List Located} {limit : Nat} {e : ParseError}
    (h : parse tokens limit = .error e) : Reader.contract limit ⟨tokens, .start⟩ = .error e := by
  unfold parse at h
  cases hrun : Reader.contract limit ⟨tokens, .start⟩ with
  | ok result =>
    rw [hrun] at h
    cases h
  | error e' =>
    rw [hrun] at h
    cases h
    rfl

/-- A parse succeeds where the reader of contracts succeeds. -/
theorem Contract.exists_run_of_parse {tokens : List Located} {limit : Nat} {contract : Contract}
    (h : parse tokens limit = .ok contract) :
    ∃ result, Reader.contract limit ⟨tokens, .start⟩ = .ok result := by
  unfold parse at h
  cases hrun : Reader.contract limit ⟨tokens, .start⟩ with
  | ok result => exact ⟨result, rfl⟩
  | error e =>
    rw [hrun] at h
    cases h

/-- Whatever list a failure is compared with, it stands at the same token. So the tokens that it
depends on are at the front of no list that is read. -/
theorem Contract.impossible_of_faults {tokens before after shown rest : List Located} {t : Located}
    {V : List Token → Prop} {e : ParseError}
    (hfaults : ∀ limit d, ∃ items c',
      Reader.Fault (Reader.contract limit) ⟨tokens, .start⟩ d V e items c')
    (hended : Token.Ended tokens)
    (hplaces : tokens.Pairwise fun a b : Located => a.position ≠ b.position)
    (htokens : tokens = before ++ t :: after) (ht : e.position = t.position)
    (hshown : tokens = before ++ shown ++ rest) (hreach : e.reach ≤ shown.length) :
    Impossible ((before ++ shown).map Located.token) := by
  intro limit accepted contract haccepted hprefix
  obtain ⟨before', c', hfault⟩ := hfaults limit ⟨accepted, .start⟩
  obtain ⟨t', after', htokens', ht', -⟩ := hfault.exists_token hended
  -- The failure is the same, so it stands at the same place whatever it is compared with.
  obtain rfl : before = before' := Token.before_eq_of_position_eq (htokens.symm.trans htokens')
    (htokens ▸ hplaces) (ht.symm.trans ht')
  -- A list that begins with these tokens shows all that the failure depends on.
  have hagree : Cursor.Agree (before ++ shown).length ⟨tokens, .start⟩ ⟨accepted, .start⟩ := by
    refine Cursor.agree_of_prefix ?_ ?_
    · rw [hshown]
      exact (List.prefix_append (before ++ shown) rest).length_le
    · rwa [hshown, List.take_left]
  obtain ⟨result, hresult⟩ := exists_run_of_parse haccepted
  refine hfault.stuck _ hagree ?_ result hresult
  rw [List.length_append]
  exact Nat.add_le_add_left hreach _

/-- **A failure is at the first impossible token.** Let a source be scanned and the limit on nesting
be as large as the number of tokens, the end not counted. If no contract is read, the place of the
failure is that of exactly one token. The tokens before it are the beginning of a list that is read,
at the same limit. With it they are the beginning of no such list, at any limit, but for a `-` where
a number may stand: there the same is true together with the token after it. -/
theorem Contract.parse_fails_at_first_impossible_token {source : String} {tokens : List Located}
    {limit : Nat} {e : ParseError} (hscan : Token.scan source = .ok tokens)
    (hlimit : tokens.length ≤ limit + 1) (hfail : parse tokens limit = .error e) :
    ∃ before t after, tokens = before ++ t :: after ∧ e.position = t.position
      ∧ (∀ other ∈ before ++ after, other.position ≠ e.position)
      ∧ Viable limit (before.map Located.token)
      ∧ (Impossible ((before ++ [t]).map Located.token)
        ∨ t.token = .operator .subtract
          ∧ (∃ digits, Viable limit (before.map Located.token ++ [.number digits]))
          ∧ ∃ next more, after = next :: more
            ∧ Impossible ((before ++ [t, next]).map Located.token)) := by
  obtain ⟨hended, -, hplaces⟩ := Token.tokens_of_scan hscan
  have hrun := run_of_parse_error hfail
  -- The end of the input is not counted, so there are enough levels.
  have hshort : (Cursor.visible ⟨tokens, .start⟩).length ≤ limit := by
    have hlength := Token.length_beforeEnd_of_ended hended
    rw [hlength] at hlimit
    exact Nat.le_of_succ_le_succ hlimit
  have hfaults := fun limit' d => (Reader.prompt_contract limit limit' (d := d) hshort).fault e hrun
  obtain ⟨before, c', hfault⟩ := hfaults limit ⟨tokens, .start⟩
  obtain ⟨t, after, htokens, hposition, hfound⟩ := hfault.exists_token hended
  -- As many tokens as the failure depends on are impossible together.
  have himpossible : ∀ shown rest, tokens = before ++ shown ++ rest → e.reach ≤ shown.length →
      Impossible ((before ++ shown).map Located.token) := fun shown rest =>
    impossible_of_faults hfaults hended hplaces htokens hposition
  refine ⟨before, t, after, htokens, hposition, ?_, viable_of_begins hfault.begins, ?_⟩
  · rw [htokens] at hplaces
    obtain ⟨-, hlater, hearlier⟩ := List.pairwise_append.1 hplaces
    intro other hother
    rw [hposition]
    rcases List.mem_append.1 hother with hother | hother
    · exact hearlier other hother t List.mem_cons_self
    · exact (List.rel_of_pairwise_cons hlater hother).symm
  -- Only a `-` may need the token behind it.
  rcases e.reach_cases with hreach | ⟨hreach, hminus⟩
  · refine Or.inl (himpossible [t] after ?_ (Nat.le_of_eq hreach))
    rw [htokens, List.append_assoc]
    rfl
  · rw [hfound] at hminus
    obtain ⟨digits, hdigits⟩ := hfault.number hreach
    refine Or.inr ⟨hminus, ⟨digits, viable_of_begins hdigits⟩, ?_⟩
    cases after with
    | nil =>
      -- The last token is the end of the input.
      obtain ⟨items, last, hitems, hlast, -⟩ := hended
      obtain ⟨-, hsame⟩ := List.append_inj' (htokens.symm.trans hitems) rfl
      cases hsame
      rw [hminus] at hlast
      cases hlast
    | cons next more =>
      refine ⟨next, more, rfl, himpossible [t, next] more ?_ (Nat.le_of_eq hreach)⟩
      rw [htokens, List.append_assoc]
      rfl

/-- A `-` before a name is refused, though a number might stand there and a number after the `-` as
well: the failure is at the `-`, and it is the name after it that is impossible. -/
theorem Contract.minus_before_name_is_impossible :
    let source := "contract C " ++ Text.braced ("func f() " ++ Text.braced "return -x")
    ∃ tokens e, Token.scan source = .ok tokens ∧ tokens.length ≤ 13 + 1
      ∧ parse tokens 13 = .error e ∧ e.position = ⟨1, 32⟩
      ∧ ∃ before t after, tokens = before ++ t :: after ∧ e.position = t.position
        ∧ (∀ other ∈ before ++ after, other.position ≠ e.position)
        ∧ Viable 13 (before.map Located.token)
        ∧ (Impossible ((before ++ [t]).map Located.token)
          ∨ t.token = .operator .subtract
            ∧ (∃ digits, Viable 13 (before.map Located.token ++ [.number digits]))
            ∧ ∃ next more, after = next :: more
              ∧ Impossible ((before ++ [t, next]).map Located.token)) := by
  intro source
  cases hscan : Token.scan source with
  | error e =>
    have hsome : (Token.scan source).toOption.isSome = true := by decide +kernel
    rw [hscan] at hsome
    cases hsome
  | ok tokens =>
    have htokens : (Token.scan source).toOption.getD [] = tokens := by
      rw [hscan]
      rfl
    have hlength : tokens.length ≤ 13 + 1 := by
      rw [← htokens]
      decide +kernel
    have hplace : (((parse tokens 13).map fun _ => none).tryCatch
        fun e => .ok (some e.position)).toOption = some (some ⟨1, 32⟩) := by
      rw [← htokens]
      decide +kernel
    cases hfail : parse tokens 13 with
    | ok contract =>
      rw [hfail] at hplace
      cases hplace
    | error e =>
      rw [hfail] at hplace
      exact ⟨tokens, e, rfl, hlength, hfail, Option.some.inj (Option.some.inj hplace),
        parse_fails_at_first_impossible_token hscan hlength hfail⟩

end Covenant
