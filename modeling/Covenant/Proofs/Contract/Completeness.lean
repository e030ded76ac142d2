import Covenant.Proofs.Contract.Soundness

/-!
# What the grammar writes is read

Where the tokens of a cursor begin with what the grammar writes for a value, the reader gives that
value and leaves the tokens after it. That takes something of those tokens: an operand takes all the
keys that follow, an expression all the operators, a branch an `else`. In the grammar none of these
can follow there, which is seen from the first token of what does follow.

* `Reader.Gives` says what a reader gives and leaves; there is one lemma for each reader. Where
  readers call each other the induction is on their bound, and on the levels that are left for
  blocks.
* `Grammar.StartsTerm` and `Grammar.StartsStatement` are about first tokens.
* `Contract.parse_of_grammar` is about a whole contract.
-/

namespace Covenant

/-! ### First tokens -/

/-- A keyword is known by its text. -/
theorem Keyword.text_inj {a b : Keyword} (h : a.text = b.text) : a = b := by
  -- There are few keywords, and their texts differ pairwise.
  cases a <;> cases b <;> first | rfl | exact absurd h (by decide)

/-- Different keywords are different tokens, so a reader that looks for one passes over the other.
-/
theorem Keyword.token_ne {a b : Keyword} (h : a ≠ b) : a.token ≠ b.token :=
  fun heq => h (text_inj (Token.ident.inj heq))

namespace Grammar

/-- An operand begins with a number, a minus sign, or a word that is no keyword but `true` or
`false`. -/
def StartsTerm : Token → Prop
  | .number _ => True
  | .operator op => op = .subtract
  | .ident name => ∀ keyword : Keyword, name = keyword.text → keyword = .true_ ∨ keyword = .false_
  | _ => False

/-- A statement begins with a number, a minus sign, or a word that is not `else`. -/
def StartsStatement : Token → Prop
  | .number _ => True
  | .operator op => op = .subtract
  | .ident name => name ≠ Keyword.else_.text
  | _ => False

/-- Of the keywords, only the two truth values begin an operand. -/
theorem StartsTerm.ne_keyword {t : Token} (h : StartsTerm t) {keyword : Keyword}
    (htrue : keyword ≠ .true_) (hfalse : keyword ≠ .false_) : t ≠ keyword.token := by
  rintro rfl
  rcases h keyword rfl with heq | heq
  · exact htrue heq
  · exact hfalse heq

/-- What begins an operand can begin a statement, namely an assignment. -/
theorem StartsTerm.startsStatement {t : Token} (h : StartsTerm t) : StartsStatement t := by
  cases t with
  | ident name =>
    -- `else` is a keyword, and not one of the two that begin operands.
    intro heq
    rcases h .else_ heq with habsurd | habsurd <;> cases habsurd
  | number digits => trivial
  | operator op => exact h
  | _ => cases h

/-- A name is no keyword, so it can begin an operand. -/
theorem startsTerm_of_name {name : String} (h : Name name) : StartsTerm (.ident name) :=
  fun keyword heq => absurd heq (h keyword)

theorem startsStatement_keyword {keyword : Keyword} (h : keyword ≠ .else_) :
    StartsStatement keyword.token :=
  fun heq => h (Keyword.text_inj heq)

variable {ts : List Token}

theorem Literal.starts {value : Covenant.Literal} (h : Literal ts value) :
    ∃ t rest, ts = t :: rest ∧ StartsTerm t := by
  cases h with
  | number _ => exact ⟨_, _, rfl, trivial⟩
  | negative _ => exact ⟨_, _, rfl, rfl⟩
  | true_ => exact ⟨_, _, rfl, fun keyword heq => Or.inl (Keyword.text_inj heq.symm)⟩
  | false_ => exact ⟨_, _, rfl, fun keyword heq => Or.inr (Keyword.text_inj heq.symm)⟩

/-- Whatever kind an operand is of, its first token is one that begins operands. -/
theorem Term.starts {t : Covenant.Term} (h : Term ts t) :
    ∃ first rest, ts = first :: rest ∧ StartsTerm first := by
  cases h with
  | literal hvalue => exact hvalue.starts
  | ident hname => exact ⟨_, _, rfl, startsTerm_of_name hname⟩
  | index hbase _ => exact ⟨_, _, rfl, startsTerm_of_name hbase⟩

/-- An expression begins with its first operand. -/
theorem Expression.starts {e : Covenant.Expression} (h : Expression ts e) :
    ∃ first rest, ts = first :: rest ∧ StartsTerm first := by
  obtain ⟨hfirst, _⟩ := h
  obtain ⟨first, rest, rfl, hstarts⟩ := hfirst.starts
  exact ⟨first, _, rfl, hstarts⟩

/-- An assignment begins with its target, which is an expression. -/
theorem Assignment.starts {a : Covenant.Assignment} (h : Assignment ts a) :
    ∃ first rest, ts = first :: rest ∧ StartsTerm first := by
  obtain ⟨htarget, _⟩ := h
  obtain ⟨first, rest, rfl, hstarts⟩ := htarget.starts
  exact ⟨first, _, rfl, hstarts⟩

theorem Block.starts {separated : Separation} {n : Nat} {body : List Covenant.Statement}
    (h : Block separated n ts body) : ∃ rest, ts = .opens .brace :: rest := by
  cases h with
  | mk _ => exact ⟨_, rfl⟩

/-- A branch of any of the three forms begins with `if`. -/
theorem Branch.starts {separated : Separation} {n : Nat} {s : Covenant.Statement}
    (h : Branch separated n ts s) : ∃ rest, ts = Keyword.if_.token :: rest := by
  cases h <;> exact ⟨_, rfl⟩

/-- Statements never begin with a closing brace, with `else` or with the end of the input. -/
theorem Statement.starts {separated : Separation} {n : Nat} {s : Covenant.Statement}
    (h : Statement separated n ts s) :
    ∃ first rest, ts = first :: rest ∧ StartsStatement first := by
  cases h with
  | returns _ => exact ⟨_, _, rfl, startsStatement_keyword nofun⟩
  | assign ha =>
    obtain ⟨first, rest, rfl, hstarts⟩ := ha.starts
    exact ⟨first, rest, rfl, hstarts.startsStatement⟩
  | declare hv =>
    obtain ⟨_, _, _⟩ := hv
    exact ⟨_, _, rfl, startsStatement_keyword nofun⟩
  | branch hbranch =>
    obtain ⟨rest, rfl⟩ := hbranch.starts
    exact ⟨_, _, rfl, startsStatement_keyword nofun⟩
  | loop _ _ _ _ => exact ⟨_, _, rfl, startsStatement_keyword nofun⟩

end Grammar

/-! ### Chaining -/

namespace Reader

variable {α β : Type} {r yes no : Reader α} {c : Cursor} {a : α} {t : Token} {rest : List Token}

/-- A reader succeeds with a value and leaves some tokens before the end. -/
def Gives (r : Reader α) (c : Cursor) (a : α) (rest : List Token) : Prop :=
  ∃ c', r c = .ok (a, c') ∧ c'.visible = rest

/-- Readers in turn: the second is asked from any cursor that shows what the first has left. -/
theorem Gives.bind {f : α → Reader β} {b : β} {mid : List Token} (h : Gives r c a mid)
    (hf : ∀ c', c'.visible = mid → Gives (f a) c' b rest) : Gives (r >>= f) c b rest := by
  obtain ⟨c', hrun, hmid⟩ := h
  obtain ⟨c'', hrun', hrest⟩ := hf c' hmid
  refine ⟨c'', ?_, hrest⟩
  simpa [StateT.bind, Bind.bind, Except.bind, hrun] using hrun'

theorem gives_pure (h : c.visible = rest) : Gives (pure a) c a rest := ⟨c, rfl, h⟩

theorem gives_advance (h : c.visible = t :: rest) : Gives advance c () rest :=
  ⟨c.advance, rfl, (Cursor.peek_of_visible h).2⟩

theorem gives_remaining (h : c.visible = rest) : Gives remaining c c.rest.length rest :=
  ⟨c, rfl, h⟩

/-- Looking at the next token leaves it where it is. -/
theorem gives_peek (h : c.visible = t :: rest) : Gives peek c t (t :: rest) := by
  refine ⟨c, ?_, h⟩
  rw [peek, (Cursor.peek_of_visible h).1]

/-- The token after the next is seen only if neither is the end of the input. -/
theorem gives_peekSecond {second : Token} (h : c.visible = t :: second :: rest) :
    Gives peekSecond c second (t :: second :: rest) := by
  refine ⟨c, ?_, h⟩
  have hsecond : c.peekSecond = second := by
    -- Two tokens are shown, so the cursor is not at the end.
    rcases c.peek_cases with ⟨hnil, -, -⟩ | ⟨-, -, hsecond⟩
    · rw [hnil] at h
      cases h
    · rw [hsecond, (Cursor.peek_of_visible (Cursor.peek_of_visible h).2).1]
  rw [peekSecond, hsecond]

/-- A reader that looks for the next token takes the branch for having seen it. -/
theorem gives_sees (h : c.visible = t :: rest) {out : List Token} (hyes : Gives yes c a out) :
    Gives (do if ← sees t then yes else no) c a out := by
  show Gives (if c.peek == t then yes else no) c a out
  rwa [if_pos (beq_iff_eq.2 (Cursor.peek_of_visible h).1)]

/-- A cursor whose tokens do not begin with a token does not show it. -/
theorem peek_ne_of_head? (h : c.visible.head? ≠ some t) (ht : (t == .eof) = false) :
    c.peek ≠ t := by
  intro hpeek
  rw [Cursor.visible_of_peek hpeek (ne_of_beq_false ht)] at h
  exact h rfl

/-- A cursor that shows one token does not show another. -/
theorem head?_ne {u : Token} (h : c.visible = t :: rest) (hne : t ≠ u) :
    c.visible.head? ≠ some u := by
  rw [h]
  exact fun heq => hne (Option.some.inj heq)

/-- A reader that looks for a token which does not come next takes the other branch. The end of the
input is left out, as a cursor shows it when no token is left. -/
theorem gives_not_sees (h : c.visible.head? ≠ some t) (ht : (t == .eof) = false)
    (hno : Gives no c a rest) : Gives (do if ← sees t then yes else no) c a rest := by
  show Gives (if c.peek == t then yes else no) c a rest
  rwa [if_neg (fun heq => peek_ne_of_head? h ht (eq_of_beq heq))]

theorem gives_seesKeyword {keyword : Keyword} (h : c.visible = keyword.token :: rest)
    {out : List Token} (hyes : Gives yes c a out) :
    Gives (do if ← seesKeyword keyword then yes else no) c a out := by
  show Gives (if c.peek.isKeyword keyword then yes else no) c a out
  rwa [if_pos (Token.isKeyword_iff.2 (Cursor.peek_of_visible h).1)]

/-- The same for a keyword. A keyword is never the end of the input. -/
theorem gives_not_seesKeyword {keyword : Keyword} (h : c.visible.head? ≠ some keyword.token)
    (hno : Gives no c a rest) :
    Gives (do if ← seesKeyword keyword then yes else no) c a rest := by
  show Gives (if c.peek.isKeyword keyword then yes else no) c a rest
  rwa [if_neg (fun heq => peek_ne_of_head? h rfl (Token.isKeyword_iff.1 heq))]

theorem gives_expect (h : c.visible = t :: rest) : Gives (expect t) c () rest :=
  gives_sees h (gives_advance h)

theorem gives_expectKeyword {keyword : Keyword} (h : c.visible = keyword.token :: rest) :
    Gives (expectKeyword keyword) c () rest :=
  gives_seesKeyword h (gives_advance h)

/-- Where a name is expected, any word is read that is not reserved. -/
theorem gives_expectName {name : String} (what : Expectation) (hname : Grammar.Name name)
    (h : c.visible = .ident name :: rest) : Gives (expectName what) c name rest := by
  refine (gives_peek h).bind fun c₁ h₁ => ?_
  dsimp only
  -- The word is no keyword, so it is not reserved.
  rw [if_neg (Bool.eq_false_iff.1 (Keyword.isReserved_eq_false_iff.2 hname))]
  exact (gives_advance h₁).bind fun c₂ h₂ => gives_pure h₂

/-! ### Operands and expressions -/

/-- A number is read with the sign that was read before it. -/
theorem gives_number (negative : Bool) {digits : String} {n : Int}
    (hn : Text.readInt? digits = some n) (h : c.visible = .number digits :: rest) :
    Gives (number negative) c (.int (if negative then -n else n)) rest := by
  refine (gives_peek h).bind fun c₁ h₁ => ?_
  dsimp only
  rw [hn]
  exact (gives_advance h₁).bind fun c₂ h₂ => gives_pure h₂

theorem gives_some (h : Gives r c a rest) : Gives (some <$> r) c (some a) rest := by
  have hbind : Gives (r >>= fun a => pure (some a)) c (some a) rest :=
    h.bind fun c' h' => gives_pure h'
  exact hbind

/-- The four ways to write a constant are read as constants. -/
theorem gives_literal? {ts : List Token} {value : Literal} (hvalue : Grammar.Literal ts value)
    (h : c.visible = ts ++ rest) : Gives literal? c (some value) rest := by
  cases hvalue with
  | number hn =>
    exact (gives_peek h).bind fun c₁ h₁ => gives_some (gives_number false hn h₁)
  | negative hn =>
    refine (gives_peek h).bind fun c₁ h₁ => ?_
    refine (gives_peekSecond h₁).bind fun c₂ h₂ => ?_
    refine (gives_advance h₂).bind fun c₃ h₃ => ?_
    exact gives_some (gives_number true hn h₃)
  | true_ =>
    refine (gives_peek h).bind fun c₁ h₁ => ?_
    exact (gives_advance h₁).bind fun c₂ h₂ => gives_pure h₂
  | false_ =>
    refine (gives_peek h).bind fun c₁ h₁ => ?_
    exact (gives_advance h₁).bind fun c₂ h₂ => gives_pure h₂

/-- A name is no constant. -/
theorem gives_literal?_none {name : String} (hname : Grammar.Name name)
    (h : c.visible = .ident name :: rest) : Gives literal? c none (.ident name :: rest) := by
  refine (gives_peek h).bind fun c₁ h₁ => ?_
  -- The two words that are constants are keywords.
  have hkeyword : ∀ keyword, ¬ Token.isKeyword keyword (.ident name) = true := fun keyword heq =>
    hname keyword (Token.ident.inj (Token.isKeyword_iff.1 heq))
  dsimp only
  rw [if_neg (hkeyword _), if_neg (hkeyword _)]
  exact gives_pure h₁

theorem gives_literal {ts : List Token} {value : Literal} (hvalue : Grammar.Literal ts value)
    (h : c.visible = ts ++ rest) : Gives literal c value rest :=
  (gives_literal? hvalue h).bind fun _ h₁ => gives_pure h₁

/-- No key comes next. -/
def NoKey (rest : List Token) : Prop := rest.head? ≠ some (.opens .square)

/-- Neither a key nor an operator comes next. -/
def Stops (rest : List Token) : Prop := NoKey rest ∧ ∀ op, rest.head? ≠ some (.operator op)

/-- No `else` comes next. -/
def NoElse (rest : List Token) : Prop := rest.head? ≠ some Keyword.else_.token

/-- The readers of operands and of keys, together: each calls the other with a smaller bound. -/
theorem gives_termWithin_and_keysWithin (bound : Nat) :
    (∀ (c : Cursor) (ts rest : List Token) (t : Term), Grammar.Term ts t → ts.length ≤ bound →
        NoKey rest → c.visible = ts ++ rest → Gives (termWithin bound) c t rest)
      ∧ ∀ (c : Cursor) (ts rest : List Token) (keys : List Term), Grammar.Keys ts keys →
        ts.length ≤ bound → NoKey rest → c.visible = ts ++ rest →
        Gives (keysWithin bound) c keys rest := by
  -- On the bound, which drops by one with every call of either reader.
  induction bound with
  | zero =>
    refine ⟨fun c ts rest t ht hlength hkey h => ?_, fun c ts rest keys hkeys hlength hkey h => ?_⟩
    · obtain ⟨first, ts, rfl, -⟩ := ht.starts
      simp at hlength
    · cases hkeys with
      | nil => exact gives_pure h
      | cons _ _ => simp at hlength
  | succ bound ih =>
    refine ⟨fun c ts rest t ht hlength hkey h => ?_, fun c ts rest keys hkeys hlength hkey h => ?_⟩
    · cases ht with
      | literal hvalue => exact (gives_literal? hvalue h).bind fun c₁ h₁ => gives_pure h₁
      | ident hname =>
        refine (gives_literal?_none hname h).bind fun c₁ h₁ => ?_
        refine (gives_expectName _ hname h₁).bind fun c₂ h₂ => ?_
        -- The reader looks for keys all the same and finds none.
        have hnone := ih.2 c₂ [] rest [] .nil (Nat.zero_le _) hkey h₂
        exact hnone.bind fun c₃ h₃ => gives_pure h₃
      | index hbase hkeys =>
        refine (gives_literal?_none hbase h).bind fun c₁ h₁ => ?_
        refine (gives_expectName _ hbase h₁).bind fun c₂ h₂ => ?_
        refine (ih.2 c₂ _ rest _ hkeys (Nat.le_of_succ_le_succ hlength) hkey h₂).bind
          fun c₃ h₃ => gives_pure h₃
    · cases hkeys with
      | nil =>
        have hhead : c.visible.head? ≠ some (.opens .square) := by
          rw [h]
          exact hkey
        exact gives_not_sees hhead rfl (gives_pure h)
      | @cons ts us key keys hterm hkeys =>
        have hlengths : ts.length ≤ bound ∧ us.length ≤ bound := by
          simp only [List.cons_append, List.length_cons, List.length_append] at hlength
          omega
        rw [List.cons_append, List.cons_append] at h
        refine gives_sees h ?_
        refine (gives_advance h).bind fun c₁ h₁ => ?_
        rw [List.append_assoc] at h₁
        -- The key ends at its closing bracket, so no key follows its last operand.
        refine (ih.1 c₁ ts _ key hterm hlengths.1 (by exact nofun) h₁).bind fun c₂ h₂ => ?_
        refine (gives_expect h₂).bind fun c₃ h₃ => ?_
        refine (ih.2 c₃ us rest keys hkeys hlengths.2 hkey h₃).bind fun c₄ h₄ => ?_
        exact gives_pure h₄

/-- What is written at the front of a cursor is no longer than the tokens to come. -/
theorem length_le_of_visible {ts : List Token} (h : c.visible = ts ++ rest) :
    ts.length ≤ c.rest.length := by
  have hle := c.length_visible_le
  rw [h, List.length_append] at hle
  omega

/-- An operand is read with all its keys. The bound is the number of tokens left, which is enough.
-/
theorem gives_term {ts : List Token} {t : Term} (ht : Grammar.Term ts t) (hkey : NoKey rest)
    (h : c.visible = ts ++ rest) : Gives term c t rest := by
  refine (gives_remaining rfl).bind fun c₁ h₁ => ?_
  have hlength := length_le_of_visible h
  exact (gives_termWithin_and_keysWithin _).1 c₁ ts rest t ht (by omega) hkey (h₁.trans h)

/-- What follows an operand in an expression is an operator or what follows the expression, so no
key. -/
theorem noKey_operands {ts : List Token} {pairs : List (Operator × Term)}
    (hpairs : Grammar.Operands ts pairs) (hkey : NoKey rest) : NoKey (ts ++ rest) := by
  cases hpairs with
  | nil => exact hkey
  | cons _ _ => exact nofun

/-- The operators and operands after the first one are read up to the end of the expression. A bound
of their length is enough, as each pair takes a token at least. -/
theorem gives_operandsWithin (bound : Nat) {c : Cursor} {ts : List Token}
    {pairs : List (Operator × Term)} (hpairs : Grammar.Operands ts pairs)
    (hlength : ts.length ≤ bound) (hstops : Stops rest) (h : c.visible = ts ++ rest) :
    Gives (operandsWithin bound) c pairs rest := by
  induction bound generalizing c ts pairs with
  | zero =>
    cases hpairs with
    | nil => exact gives_pure h
    | cons _ _ => simp at hlength
  | succ bound ih =>
    cases hpairs with
    | nil =>
      -- The reader stops here because what follows is no operator.
      have hpeek : c.peek.operator? = none := by
        cases hop : c.peek.operator? with
        | none => rfl
        | some op =>
          have hvisible := Cursor.visible_of_peek (Token.eq_of_operator? hop) nofun
          rw [h, List.nil_append] at hvisible
          exact absurd (congrArg List.head? hvisible) (hstops.2 op)
      have hnone : Gives peek c c.peek rest := ⟨c, rfl, h⟩
      refine hnone.bind fun c₁ h₁ => ?_
      rw [hpeek]
      exact gives_pure h₁
    | @cons op ts us operand pairs hoperand hpairs =>
      rw [List.cons_append, List.cons_append, List.append_assoc] at h
      refine (gives_peek h).bind fun c₁ h₁ => ?_
      refine (gives_advance h₁).bind fun c₂ h₂ => ?_
      refine (gives_term hoperand (noKey_operands hpairs hstops.1) h₂).bind fun c₃ h₃ => ?_
      have hrest : us.length ≤ bound := by
        simp only [List.cons_append, List.length_cons, List.length_append] at hlength
        omega
      exact (ih hpairs hrest h₃).bind fun c₄ h₄ => gives_pure h₄

/-- An expression is read if neither a key nor an operator follows it. -/
theorem gives_expression {ts : List Token} {e : Expression} (he : Grammar.Expression ts e)
    (hstops : Stops rest) (h : c.visible = ts ++ rest) : Gives expression c e rest := by
  cases he with
  | mk hfirst hrest =>
    rw [List.append_assoc] at h
    refine (gives_term hfirst (noKey_operands hrest hstops.1) h).bind fun c₁ h₁ => ?_
    refine (gives_remaining h₁).bind fun c₂ h₂ => ?_
    exact (gives_operandsWithin _ hrest (length_le_of_visible h₁) hstops h₂).bind fun c₃ h₃ =>
      gives_pure h₃

/-! ### Statements -/

/-- An assignment is read as its two expressions. The first ends at the `=`. -/
theorem gives_assignment {ts : List Token} {a : Assignment} (ha : Grammar.Assignment ts a)
    (hstops : Stops rest) (h : c.visible = ts ++ rest) : Gives assignment c a rest := by
  cases ha with
  | mk htarget hvalue =>
    rw [List.append_assoc] at h
    refine (gives_expression htarget ⟨by exact nofun, by exact nofun⟩ h).bind fun c₁ h₁ => ?_
    refine (gives_expect h₁).bind fun c₂ h₂ => ?_
    exact (gives_expression hvalue hstops h₂).bind fun c₃ h₃ => gives_pure h₃

/-- A local variable is read with or without a type. -/
theorem gives_localVariable {ts : List Token} {v : LocalVariable}
    (hv : Grammar.LocalVariable ts v) (hstops : Stops rest) (h : c.visible = ts ++ rest) :
    Gives localVariable c v rest := by
  cases hv with
  | @mk ts us name value hname htype hvalue =>
    rw [List.cons_append, List.cons_append, List.append_assoc] at h
    refine (gives_advance h).bind fun c₁ h₁ => ?_
    refine (gives_expectName _ hname h₁).bind fun c₂ h₂ => ?_
    -- What comes after the type is read in the same way if there is no type.
    have hrest : ∀ c₃ : Cursor, c₃.visible = .assign :: us ++ rest →
        Gives (do expect .assign; let value ← expression; return (⟨name, value⟩ : LocalVariable)) c₃
          ⟨name, value⟩ rest := by
      intro c₃ h₃
      refine (gives_expect h₃).bind fun c₄ h₄ => ?_
      exact (gives_expression hvalue hstops h₄).bind fun c₅ h₅ => gives_pure h₅
    cases htype with
    | none =>
      have hhead : c₂.visible.head? ≠ some .colon := by
        rw [h₂]
        exact nofun
      exact gives_not_sees hhead rfl (hrest c₂ h₂)
    | type htype =>
      refine gives_sees h₂ ?_
      refine (gives_advance h₂).bind fun c₃ h₃ => ?_
      exact (gives_expectName _ htype h₃).bind fun c₄ h₄ => hrest c₄ h₄

open Grammar (Apart StartsStatement)

/-- What comes after a statement in a block: the end of the block, or one more statement. -/
def AfterStatement (rest : List Token) : Prop :=
  ∃ t more, rest = t :: more ∧ (t = .closes .brace ∨ StartsStatement t)

/-- No key follows a statement, as none begins with a square bracket. -/
theorem AfterStatement.noKey (h : AfterStatement rest) : NoKey rest := by
  obtain ⟨t, more, rfl, rfl | hstarts⟩ := h
  · exact nofun
  · intro hhead
    cases hhead
    exact hstarts

/-- No `else` follows a statement, so a branch is read without one it does not have. -/
theorem AfterStatement.noElse (h : AfterStatement rest) : NoElse rest := by
  obtain ⟨t, more, rfl, rfl | hstarts⟩ := h
  · exact nofun
  · intro hhead
    cases hhead
    exact hstarts rfl

/-- What follows a statement ends an expression, unless it begins with a minus sign. -/
theorem AfterStatement.stops (h : AfterStatement rest)
    (hminus : rest.head? ≠ some (.operator .subtract)) : Stops rest := by
  refine ⟨h.noKey, fun op hhead => ?_⟩
  obtain ⟨t, more, rfl, rfl | hstarts⟩ := h
  · cases hhead
  · cases hhead
    cases hstarts
    exact hminus rfl

section Statements

/-- Blocks of at most so many levels are read. -/
def GivesBlocks (readBlock : Reader (List Statement)) (levels : Nat) : Prop :=
  ∀ {n : Nat} {c : Cursor} {ts rest : List Token} {body : List Statement},
    Grammar.Block Apart n ts body → n ≤ levels → c.visible = ts ++ rest →
    Gives readBlock c body rest

/-- Branches after `else` are read, which count one level more. -/
def GivesChained (readChained : Reader Statement) (levels : Nat) : Prop :=
  ∀ {n : Nat} {c : Cursor} {ts rest : List Token} {s : Statement},
    Grammar.Branch Apart n ts s → n + 1 ≤ levels → NoElse rest → c.visible = ts ++ rest →
    Gives readChained c s rest

variable {readBlock : Reader (List Statement)} {readChained : Reader Statement}
  {levels n : Nat} {ts : List Token} {s : Statement}

/-- A block begins with a brace, so it ends an expression before it. -/
theorem stops_block {body : List Statement} (hbody : Grammar.Block Apart n ts body) :
    Stops (ts ++ rest) := by
  obtain ⟨us, rfl⟩ := hbody.starts
  exact ⟨nofun, nofun⟩

/-- The condition of a branch and its first block are read, and the reader goes on after them. -/
theorem gives_firstArm {α : Type} {finish : Expression → List Statement → Reader α} {a : α}
    {us more : List Token} {condition : Expression} {body : List Statement}
    (hblock : GivesBlocks readBlock levels) (hcondition : Grammar.Expression ts condition)
    (hbody : Grammar.Block Apart n us body) (hn : n ≤ levels)
    (h : c.visible = Keyword.if_.token :: (ts ++ (us ++ more)))
    (hfinish : ∀ c' : Cursor, c'.visible = more → Gives (finish condition body) c' a rest) :
    Gives (do advance; let condition ← expression; let body ← readBlock; finish condition body) c
      a rest := by
  refine (gives_advance h).bind fun c₁ h₁ => ?_
  refine (gives_expression hcondition (stops_block hbody) h₁).bind fun c₂ h₂ => ?_
  exact (hblock hbody hn h₂).bind fun c₃ h₃ => hfinish c₃ h₃

/-- A branch is read in each of its three forms, given readers of its blocks and of a branch after
`else`. -/
theorem gives_branch (hblock : GivesBlocks readBlock levels)
    (hchained : GivesChained readChained levels) (hs : Grammar.Branch Apart n ts s)
    (hn : n ≤ levels) (helse : NoElse rest) (h : c.visible = ts ++ rest) :
    Gives (branch readBlock readChained) c s rest := by
  cases hs with
  | single hcondition hbody =>
    rw [List.cons_append, List.cons_append, List.append_assoc] at h
    refine gives_firstArm hblock hcondition hbody hn h fun c₁ h₁ => ?_
    have hhead : c₁.visible.head? ≠ some Keyword.else_.token := by
      rw [h₁]
      exact helse
    exact gives_not_seesKeyword hhead (gives_pure h₁)
  | double hcondition hbody helseBody =>
    obtain ⟨hfirst, hsecond⟩ := Nat.max_le.1 hn
    rw [List.cons_append, List.cons_append, List.cons_append, List.append_assoc,
      List.append_assoc] at h
    refine gives_firstArm hblock hcondition hbody hfirst h fun c₁ h₁ => ?_
    refine gives_seesKeyword h₁ ?_
    refine (gives_advance h₁).bind fun c₂ h₂ => ?_
    -- The block after `else` begins with a brace, so this is no chain of branches.
    have hhead : c₂.visible.head? ≠ some Keyword.if_.token := by
      obtain ⟨us, rfl⟩ := helseBody.starts
      rw [h₂]
      exact nofun
    refine gives_not_seesKeyword hhead ?_
    exact (hblock helseBody hsecond h₂).bind fun c₃ h₃ => gives_pure h₃
  | chained hcondition hbody hnext =>
    obtain ⟨hfirst, hsecond⟩ := Nat.max_le.1 hn
    rw [List.cons_append, List.cons_append, List.cons_append, List.append_assoc,
      List.append_assoc] at h
    refine gives_firstArm hblock hcondition hbody hfirst h fun c₁ h₁ => ?_
    refine gives_seesKeyword h₁ ?_
    refine (gives_advance h₁).bind fun c₂ h₂ => ?_
    obtain ⟨us, hus⟩ := hnext.starts
    have hif : c₂.visible = Keyword.if_.token :: (us ++ rest) := by
      rw [h₂, hus]
      rfl
    refine gives_seesKeyword hif ?_
    exact (hchained hnext hsecond helse h₂).bind fun c₃ h₃ => gives_pure h₃

/-- A loop is read as its four parts, each of which ends where the next begins. -/
theorem gives_loop {us vs ws : List Token} {start : LocalVariable} {condition : Expression}
    {step : Assignment} {body : List Statement} (hblock : GivesBlocks readBlock levels)
    (hstart : Grammar.LocalVariable ts start) (hcondition : Grammar.Expression us condition)
    (hstep : Grammar.Assignment vs step) (hbody : Grammar.Block Apart n ws body) (hn : n ≤ levels)
    (h : c.visible = Keyword.for_.token ::
      (ts ++ .semicolon :: (us ++ .semicolon :: (vs ++ (ws ++ rest))))) :
    Gives (loop readBlock) c (.loop start condition step body) rest := by
  refine (gives_advance h).bind fun c₁ h₁ => ?_
  -- The first part begins with `var`, which the reader looks for before it reads on.
  have hvar : ∃ more, c₁.visible = Keyword.var.token :: more := by
    obtain ⟨_, _, _⟩ := hstart
    exact ⟨_, h₁⟩
  obtain ⟨more, hvar⟩ := hvar
  refine gives_seesKeyword hvar ?_
  refine (gives_localVariable hstart ⟨by exact nofun, by exact nofun⟩ h₁).bind fun c₂ h₂ => ?_
  refine (gives_expect h₂).bind fun c₃ h₃ => ?_
  refine (gives_expression hcondition ⟨by exact nofun, by exact nofun⟩ h₃).bind fun c₄ h₄ => ?_
  refine (gives_expect h₄).bind fun c₅ h₅ => ?_
  refine (gives_assignment hstep (stops_block hbody) h₅).bind fun c₆ h₆ => ?_
  exact (hblock hbody hn h₆).bind fun c₇ h₇ => gives_pure h₇

/-- The first token of a statement tells its kind. -/
theorem gives_statement (hblock : GivesBlocks readBlock levels)
    (hchained : GivesChained readChained levels) (hs : Grammar.Statement Apart n ts s)
    (hn : n ≤ levels) (hafter : AfterStatement rest) (hapart : Apart s rest)
    (h : c.visible = ts ++ rest) : Gives (statement readBlock readChained) c s rest := by
  -- The reader asks for the keywords in a fixed order; each case passes over those before its own.
  cases hs with
  | returns hvalue =>
    refine gives_seesKeyword h ?_
    refine (gives_advance h).bind fun c₁ h₁ => ?_
    exact (gives_expression hvalue (hafter.stops hapart) h₁).bind fun c₂ h₂ => gives_pure h₂
  | branch hbranch =>
    obtain ⟨us, hus⟩ := hbranch.starts
    have hif : c.visible = Keyword.if_.token :: (us ++ rest) := by rw [h, hus]; rfl
    refine gives_not_seesKeyword (head?_ne hif (Keyword.token_ne nofun)) ?_
    refine gives_seesKeyword hif ?_
    exact gives_branch hblock hchained hbranch hn hafter.noElse h
  | loop hstart hcondition hstep hbody =>
    simp only [List.cons_append, List.append_assoc] at h
    refine gives_not_seesKeyword (head?_ne h (Keyword.token_ne nofun)) ?_
    refine gives_not_seesKeyword (head?_ne h (Keyword.token_ne nofun)) ?_
    refine gives_seesKeyword h ?_
    exact gives_loop hblock hstart hcondition hstep hbody hn h
  | declare hv =>
    have hvar : ∃ more, c.visible = Keyword.var.token :: more := by
      obtain ⟨_, _, _⟩ := hv
      exact ⟨_, h⟩
    obtain ⟨more, hvar⟩ := hvar
    refine gives_not_seesKeyword (head?_ne hvar (Keyword.token_ne nofun)) ?_
    refine gives_not_seesKeyword (head?_ne hvar (Keyword.token_ne nofun)) ?_
    refine gives_not_seesKeyword (head?_ne hvar (Keyword.token_ne nofun)) ?_
    refine gives_seesKeyword hvar ?_
    exact (gives_localVariable hv (hafter.stops hapart) h).bind fun c₁ h₁ => gives_pure h₁
  | assign ha =>
    obtain ⟨first, us, hus, hstarts⟩ := ha.starts
    have hfirst : c.visible = first :: (us ++ rest) := by rw [h, hus]; rfl
    -- An expression begins with no keyword but `true` and `false`.
    have hskip : ∀ keyword : Keyword, keyword ≠ .true_ → keyword ≠ .false_ →
        c.visible.head? ≠ some keyword.token :=
      fun keyword htrue hfalse => head?_ne hfirst (hstarts.ne_keyword htrue hfalse)
    refine gives_not_seesKeyword (hskip .return_ nofun nofun) ?_
    refine gives_not_seesKeyword (hskip .if_ nofun nofun) ?_
    refine gives_not_seesKeyword (hskip .for_ nofun nofun) ?_
    refine gives_not_seesKeyword (hskip .var nofun nofun) ?_
    exact (gives_assignment ha (hafter.stops hapart) h).bind fun c₁ h₁ => gives_pure h₁

end Statements

/-- A statement in a block is followed by the next one or by the end of the block. -/
theorem afterStatement_statements {n : Nat} {ts : List Token} {body : List Statement}
    (hbody : Grammar.Statements Apart n ts body) :
    AfterStatement (ts ++ .closes .brace :: rest) := by
  cases hbody with
  | nil => exact ⟨_, _, rfl, Or.inl rfl⟩
  | cons hfirst _ _ =>
    obtain ⟨first, us, rfl, hstarts⟩ := hfirst.starts
    exact ⟨first, _, rfl, Or.inr hstarts⟩

/-- What may follow a statement may follow it with the end of the block after it. -/
theorem apart_append_brace {s : Statement} {ts : List Token} (h : Apart s ts) :
    Apart s (ts ++ .closes .brace :: rest) := by
  cases ts with
  | nil => cases s <;> first | trivial | exact nofun
  | cons t ts => cases s <;> exact h

/-- The statements of a block are read one after the other, up to its closing brace. By induction on
the bound, of which every statement takes a token at least. -/
theorem gives_statementsWithin {next : Reader Statement} {levels : Nat}
    (hnext : ∀ {n : Nat} {c : Cursor} {ts rest : List Token} {s : Statement},
      Grammar.Statement Apart n ts s → n ≤ levels → AfterStatement rest → Apart s rest →
      c.visible = ts ++ rest → Gives next c s rest)
    (bound : Nat) {n : Nat} {c : Cursor} {ts : List Token} {body : List Statement}
    (hbody : Grammar.Statements Apart n ts body) (hn : n ≤ levels) (hlength : ts.length < bound)
    (h : c.visible = ts ++ .closes .brace :: rest) :
    Gives (statementsWithin next bound) c body (.closes .brace :: rest) := by
  induction bound generalizing n c ts body with
  | zero => exact absurd hlength (Nat.not_lt_zero _)
  | succ bound ih =>
    cases hbody with
    | nil => exact gives_sees h (gives_pure h)
    | @cons n m ts us first body hfirst hseparated hrest =>
      obtain ⟨hn, hm⟩ := Nat.max_le.1 hn
      obtain ⟨t, ts', hts, hstarts⟩ := hfirst.starts
      rw [List.append_assoc] at h
      have htoken : c.visible = t :: (ts' ++ (us ++ .closes .brace :: rest)) := by
        rw [h, hts]
        rfl
      -- A statement begins neither with a closing brace nor with the end of the input.
      have hbrace : t ≠ .closes .brace := by
        rintro rfl
        exact hstarts
      have heof : c.peek ≠ .eof := by
        rw [(Cursor.peek_of_visible htoken).1]
        rintro rfl
        exact hstarts
      refine gives_not_sees (head?_ne htoken hbrace) rfl ?_
      show Gives (if c.peek == .eof then _ else _) c _ _
      rw [if_neg (fun heq => heof (eq_of_beq heq))]
      refine (hnext hfirst hn (afterStatement_statements hrest) (apart_append_brace hseparated)
        h).bind fun c₁ h₁ => ?_
      have hshort : us.length < bound := by
        rw [hts, List.length_append, List.length_cons] at hlength
        omega
      exact (ih hrest hm hshort h₁).bind fun c₂ h₂ => gives_pure h₂

/-- Blocks and branches after `else` are read as deep as there are levels. By induction on the
levels, since a block inside a block has one less. -/
theorem gives_block_and_chainedBranch (limit levels : Nat) :
    GivesBlocks (block limit levels) levels ∧ GivesChained (chainedBranch limit levels) levels := by
  induction levels with
  | zero =>
    refine ⟨fun hbody hn _ => ?_, fun _ hn _ _ => absurd hn (Nat.not_succ_le_zero _)⟩
    cases hbody
    exact absurd hn (Nat.not_succ_le_zero _)
  | succ levels ih =>
    refine ⟨fun hbody hn h => ?_, fun hs hn helse h => ?_⟩
    · cases hbody with
      | mk hbody =>
        rw [List.append_assoc] at h
        refine (gives_expect h).bind fun c₁ h₁ => ?_
        refine (gives_remaining h₁).bind fun c₂ h₂ => ?_
        refine (gives_statementsWithin (gives_statement ih.1 ih.2) _ hbody
          (Nat.le_of_succ_le_succ hn) (Nat.lt_succ_of_le (length_le_of_visible h₁)) h₂).bind
            fun c₃ h₃ => ?_
        exact (gives_expect h₃).bind fun c₄ h₄ => gives_pure h₄
    · exact gives_branch ih.1 ih.2 hs (Nat.le_of_succ_le_succ hn) helse h

/-! ### Declarations -/

/-- The types of a mapping are read from the outside in. The parentheses that close the mappings
inside are left, one for each key, and read by `closingParens`. -/
theorem gives_mappingTypesWithin {ts : List Token} {keys : List String} {value : String}
    (htypes : Grammar.MappingType ts keys value) {bound : Nat} (hlength : ts.length ≤ bound)
    {c : Cursor} {rest : List Token} (h : c.visible = ts ++ rest) :
    Gives (mappingTypesWithin bound) c (keys, value)
      (List.replicate keys.length (.closes .paren) ++ rest) := by
  induction htypes generalizing bound c rest with
  | single hkey hvalue =>
    cases bound with
    | zero => exact absurd hlength (Nat.not_succ_le_zero _)
    | succ bound =>
      refine (gives_expect h).bind fun c₁ h₁ => ?_
      refine (gives_expectName _ hkey h₁).bind fun c₂ h₂ => ?_
      refine (gives_expect h₂).bind fun c₃ h₃ => ?_
      refine gives_not_seesKeyword (head?_ne h₃ ?_) ?_
      · exact fun heq => hvalue .mapping (Token.ident.inj heq)
      · exact (gives_expectName _ hvalue h₃).bind fun c₄ h₄ => gives_pure h₄
  | @nested ts key keys value hkey _ ih =>
    cases bound with
    | zero => exact absurd hlength (Nat.not_succ_le_zero _)
    | succ bound =>
      have hinner : ts.length ≤ bound := by
        simp only [List.cons_append, List.length_cons, List.length_append] at hlength
        omega
      simp only [List.cons_append, List.append_assoc] at h
      refine (gives_expect h).bind fun c₁ h₁ => ?_
      refine (gives_expectName _ hkey h₁).bind fun c₂ h₂ => ?_
      refine (gives_expect h₂).bind fun c₃ h₃ => ?_
      refine gives_seesKeyword h₃ ?_
      refine (gives_advance h₃).bind fun c₄ h₄ => ?_
      refine (ih hinner h₄).bind fun c₅ h₅ => gives_pure ?_
      -- The parenthesis that closes this mapping joins those that close the inner ones.
      rw [h₅, List.length_cons, List.replicate_succ', List.append_assoc]
      rfl

theorem gives_closingParens (count : Nat) {c : Cursor}
    (h : c.visible = List.replicate count (.closes .paren) ++ rest) :
    Gives (closingParens count) c () rest := by
  induction count generalizing c with
  | zero => exact gives_pure h
  | succ count ih => exact (gives_expect h).bind fun c₁ h₁ => ih h₁

/-- Parameters are read up to one that is not followed by a comma. -/
theorem gives_parametersWithin {ts : List Token} {ps : List Parameter}
    (hps : Grammar.ParameterList ts ps) {bound : Nat} (hlength : ts.length ≤ bound) {c : Cursor}
    (hcomma : rest.head? ≠ some .comma) (h : c.visible = ts ++ rest) :
    Gives (parametersWithin bound) c ps rest := by
  induction hps generalizing bound c with
  | last hname htype =>
    cases bound with
    | zero => exact absurd hlength (Nat.not_succ_le_zero _)
    | succ bound =>
      refine (gives_expectName _ hname h).bind fun c₁ h₁ => ?_
      refine (gives_expect h₁).bind fun c₂ h₂ => ?_
      refine (gives_expectName _ htype h₂).bind fun c₃ h₃ => ?_
      have hhead : c₃.visible.head? ≠ some .comma := by
        rw [h₃]
        exact hcomma
      exact gives_not_sees hhead rfl (gives_pure h₃)
  | more hname htype _ ih =>
    cases bound with
    | zero => exact absurd hlength (Nat.not_succ_le_zero _)
    | succ bound =>
      refine (gives_expectName _ hname h).bind fun c₁ h₁ => ?_
      refine (gives_expect h₁).bind fun c₂ h₂ => ?_
      refine (gives_expectName _ htype h₂).bind fun c₃ h₃ => ?_
      refine gives_sees h₃ ?_
      refine (gives_advance h₃).bind fun c₄ h₄ => ?_
      -- A parameter and its comma are four tokens, and the bound drops by one.
      have hshort := Nat.le_of_succ_le_succ hlength
      refine (ih ?_ h₄).bind fun c₅ h₅ => gives_pure h₅
      simp only [List.length_cons] at hshort
      omega

/-- The parameters between the parentheses of a function are read, or there are none. -/
theorem gives_parameters {ts : List Token} {ps : List Parameter}
    (hps : Grammar.Parameters ts ps) (h : c.visible = ts ++ .closes .paren :: rest) :
    Gives parameters c ps (.closes .paren :: rest) := by
  cases hps with
  | none => exact gives_sees h (gives_pure h)
  | some hps =>
    have hname : ∃ name more, c.visible = .ident name :: more := by
      cases hps <;> exact ⟨_, _, h⟩
    obtain ⟨name, more, hname⟩ := hname
    refine gives_not_sees (head?_ne hname nofun) rfl ?_
    refine (gives_remaining h).bind fun c₁ h₁ => ?_
    have hlength := length_le_of_visible h
    exact gives_parametersWithin hps (by omega) nofun h₁

/-- A return type is read if there is an arrow, and there is none where a block follows at once. -/
theorem gives_returnType {ts : List Token} {type : Option String}
    (htype : Grammar.ReturnType ts type) (harrow : rest.head? ≠ some .arrow)
    (h : c.visible = ts ++ rest) : Gives returnType c type rest := by
  cases htype with
  | none =>
    have hhead : c.visible.head? ≠ some .arrow := by
      rw [h]
      exact harrow
    exact gives_not_sees hhead rfl (gives_pure h)
  | some htype =>
    refine gives_sees h ?_
    refine (gives_advance h).bind fun c₁ h₁ => ?_
    exact (gives_expectName _ htype h₁).bind fun c₂ h₂ => gives_pure h₂

/-- The declaration of a variable is read with its type and its constant. -/
theorem gives_variableDeclaration {ts : List Token} {name type : String} {value : Literal}
    (hname : Grammar.Name name) (htype : Grammar.Name type) (hvalue : Grammar.Literal ts value)
    (h : c.visible = Keyword.var.token :: .ident name :: .colon :: .ident type :: .assign ::
      (ts ++ rest)) :
    Gives variableDeclaration c ⟨name, type, value⟩ rest := by
  refine (gives_advance h).bind fun c₁ h₁ => ?_
  refine (gives_expectName _ hname h₁).bind fun c₂ h₂ => ?_
  refine (gives_expect h₂).bind fun c₃ h₃ => ?_
  refine (gives_expectName _ htype h₃).bind fun c₄ h₄ => ?_
  refine (gives_expect h₄).bind fun c₅ h₅ => ?_
  exact (gives_literal hvalue h₅).bind fun c₆ h₆ => gives_pure h₆

/-- The declaration of a mapping is read with the types of its keys and of its values. -/
theorem gives_mappingDeclaration {ts : List Token} {name : String} {keys : List String}
    {value : String} (htypes : Grammar.MappingType ts keys value) (hname : Grammar.Name name)
    (h : c.visible = Keyword.mapping.token :: (ts ++ .ident name :: rest)) :
    Gives mappingDeclaration c ⟨name, keys, value⟩ rest := by
  refine (gives_advance h).bind fun c₁ h₁ => ?_
  refine (gives_remaining h₁).bind fun c₂ h₂ => ?_
  have hlength := length_le_of_visible h₁
  refine (gives_mappingTypesWithin htypes (Nat.le_succ_of_le hlength) h₂).bind fun c₃ h₃ => ?_
  refine (gives_closingParens keys.length h₃).bind fun c₄ h₄ => ?_
  exact (gives_expectName _ hname h₄).bind fun c₅ h₅ => gives_pure h₅

/-- The declaration of a function is read if its body is no deeper than the limit. -/
theorem gives_functionDeclaration {limit n : Nat} {ts us vs : List Token} {name : String}
    {ps : List Parameter} {type : Option String} {body : List Statement} (hname : Grammar.Name name)
    (hps : Grammar.Parameters ts ps) (htype : Grammar.ReturnType us type)
    (hbody : Grammar.Block Apart n vs body) (hn : n ≤ limit)
    (h : c.visible = Keyword.func.token :: .ident name :: .opens .paren ::
      (ts ++ .closes .paren :: (us ++ (vs ++ rest)))) :
    Gives (functionDeclaration limit) c ⟨name, ps, type, body⟩ rest := by
  -- The body begins with a brace, so there is no arrow where there is no return type.
  have harrow : (vs ++ rest).head? ≠ some .arrow := by
    obtain ⟨more, rfl⟩ := hbody.starts
    exact nofun
  refine (gives_advance h).bind fun c₁ h₁ => ?_
  refine (gives_expectName _ hname h₁).bind fun c₂ h₂ => ?_
  refine (gives_expect h₂).bind fun c₃ h₃ => ?_
  refine (gives_parameters hps h₃).bind fun c₄ h₄ => ?_
  refine (gives_expect h₄).bind fun c₅ h₅ => ?_
  refine (gives_returnType htype harrow h₅).bind fun c₆ h₆ => ?_
  refine ((gives_block_and_chainedBranch limit limit).1 hbody hn h₆).bind fun c₇ h₇ => ?_
  exact gives_pure h₇

/-- The first token of a declaration tells its kind. -/
theorem gives_declaration {limit n : Nat} {ts : List Token} {d : Declaration}
    (hd : Grammar.Declaration Apart n ts d) (hn : n ≤ limit) (h : c.visible = ts ++ rest) :
    Gives (declaration limit) c d rest := by
  cases hd with
  | variable_ hname htype hvalue =>
    refine gives_seesKeyword h ?_
    exact (gives_variableDeclaration hname htype hvalue h).bind fun c₁ h₁ => gives_pure h₁
  | mapping htypes hname =>
    simp only [List.cons_append, List.append_assoc] at h
    refine gives_not_seesKeyword (head?_ne h (Keyword.token_ne nofun)) ?_
    refine gives_seesKeyword h ?_
    exact (gives_mappingDeclaration htypes hname h).bind fun c₁ h₁ => gives_pure h₁
  | function hname hps htype hbody =>
    simp only [List.cons_append, List.append_assoc] at h
    refine gives_not_seesKeyword (head?_ne h (Keyword.token_ne nofun)) ?_
    refine gives_not_seesKeyword (head?_ne h (Keyword.token_ne nofun)) ?_
    refine gives_seesKeyword h ?_
    exact (gives_functionDeclaration hname hps htype hbody hn h).bind fun c₁ h₁ => gives_pure h₁

/-- Declarations are read one after the other, up to the brace that closes the contract. -/
theorem gives_declarationsWithin {limit : Nat} (bound : Nat) {n : Nat} {c : Cursor}
    {ts : List Token} {ds : List Declaration} (hds : Grammar.Declarations Apart n ts ds)
    (hn : n ≤ limit) (hlength : ts.length < bound)
    (h : c.visible = ts ++ .closes .brace :: rest) :
    Gives (declarationsWithin limit bound) c ds (.closes .brace :: rest) := by
  induction bound generalizing n c ts ds with
  | zero => exact absurd hlength (Nat.not_lt_zero _)
  | succ bound ih =>
    cases hds with
    | nil => exact gives_sees h (gives_pure h)
    | @cons n m ts us first ds hfirst hrest =>
      obtain ⟨hn, hm⟩ := Nat.max_le.1 hn
      -- Every declaration begins with a keyword, which is a word and no brace.
      have hword : ∃ name ts', ts = .ident name :: ts' := by
        cases hfirst <;> exact ⟨_, _, rfl⟩
      obtain ⟨name, ts', hts⟩ := hword
      rw [List.append_assoc] at h
      have htoken : c.visible = .ident name :: (ts' ++ (us ++ .closes .brace :: rest)) := by
        rw [h, hts]
        rfl
      refine gives_not_sees (head?_ne htoken nofun) rfl ?_
      refine (gives_declaration hfirst hn h).bind fun c₁ h₁ => ?_
      have hshort : us.length < bound := by
        rw [hts, List.length_append, List.length_cons] at hlength
        omega
      exact (ih hrest hm hshort h₁).bind fun c₂ h₂ => gives_pure h₂

/-- A contract is read, and no token is left after it. -/
theorem gives_contract {limit n : Nat} {contract : Contract}
    (hcontract : Grammar.Contract Apart n c.visible contract) (hn : n ≤ limit) :
    Gives (Reader.contract limit) c contract [] := by
  generalize hts : c.visible = ts at hcontract
  cases hcontract with
  | mk hname hds =>
    refine (gives_expectKeyword hts).bind fun c₁ h₁ => ?_
    refine (gives_expectName _ hname h₁).bind fun c₂ h₂ => ?_
    refine (gives_expect h₂).bind fun c₃ h₃ => ?_
    refine (gives_remaining h₃).bind fun c₄ h₄ => ?_
    refine (gives_declarationsWithin _ hds hn (Nat.lt_succ_of_le (length_le_of_visible h₃)) h₄).bind
      fun c₅ h₅ => ?_
    refine (gives_expect h₅).bind fun c₆ h₆ => ?_
    -- No tokens are left, so the cursor shows the end of the input and stays where it is.
    have hend : Gives (expect .eof) c₆ () [] := by
      have heof := Cursor.peek_of_visible_nil h₆
      show Gives (if c₆.peek == .eof then advance else fail _) c₆ () []
      rw [if_pos (beq_iff_eq.2 heof)]
      rcases c₆.peek_cases with ⟨-, -, hadvance⟩ | ⟨hne, -, -⟩
      · exact ⟨_, rfl, hadvance⟩
      · exact absurd heof hne
    exact hend.bind fun c₇ h₇ => gives_pure h₇

end Reader

/-- What the grammar writes before the end of the input is read. -/
theorem Contract.parse_of_grammar {tokens : List Located} {limit n : Nat} {c : Contract}
    (h : Grammar.Contract Grammar.Apart n (Token.beforeEnd tokens) c) (hn : n ≤ limit) :
    Contract.parse tokens limit = .ok c := by
  have hcursor : Grammar.Contract Grammar.Apart n (Cursor.visible ⟨tokens, .start⟩) c := h
  obtain ⟨c', hrun, -⟩ := Reader.gives_contract hcursor hn
  rw [parse, hrun]
  rfl

end Covenant
