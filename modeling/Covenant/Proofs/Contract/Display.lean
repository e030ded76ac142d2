import Covenant.Proofs.Contract.Exactness
import Covenant.Proofs.Token.Split

/-!
# Written expressions are read back

The written form of an expression is scanned into tokens that the grammar writes the expression
with, so the readers give it back. Two things have to be seen for that. No lexeme runs into the next
one: a name or a number is followed by a space or a bracket, an operator by a space, and the sign of
a number by a digit. And the signs are taken for what they were: after an operator a `-` belongs to
the number behind it.

* `Token.Spells` says which tokens a text is scanned into, up to its end.
* `Token.Prints` is about a text with more behind it: a boundary, at which no word goes on.
* `Term.exists_prints` and `Expression.exists_prints` give the tokens of a written form.
-/

namespace Covenant

namespace Token

/-! ### Texts and their tokens -/

/-- A text is scanned into tokens and the end, wherever it stands. -/
def Spells (text : List Char) (ts : List Token) : Prop :=
  ∀ position, ∃ tokens, scanFrom position text = .ok tokens ∧ beforeEnd tokens = ts

theorem spells_nil : Spells [] [] :=
  fun _ => ⟨_, scanFrom_of_trivia rfl, rfl⟩

/-- A token that is not the end comes before the end. -/
theorem beforeEnd_cons {item : Located} (h : (item.token == .eof) = false) (tokens : List Located) :
    beforeEnd (item :: tokens) = item.token :: beforeEnd tokens := by
  have hne : (item.token != .eof) = true := by rw [bne, h]; rfl
  rw [beforeEnd, List.map_cons, List.takeWhile_cons, hne, if_pos rfl]
  rfl

/-- A blank at the front changes places and nothing else. -/
theorem scanFrom_blank {c : Char} (hc : Text.isBlank c = true) (position : Position)
    (text : List Char) : scanFrom position (c :: text) = scanFrom (position.next c) text := by
  have hskip := skipTrivia_blank hc text
  have hadvance : position.advance (skipTrivia false (c :: text)).1
      = (position.next c).advance (skipTrivia false text).1 := by
    rw [hskip]
    rfl
  have hrest : (skipTrivia false (c :: text)).2 = (skipTrivia false text).2 := by rw [hskip]
  cases hleft : (skipTrivia false text).2 with
  | nil => rw [scanFrom_of_trivia (hrest.trans hleft), scanFrom_of_trivia hleft, hadvance]
  | cons d rest =>
    cases hlexeme : lexeme d rest with
    | error problem =>
      rw [scanFrom_of_problem (hrest.trans hleft) hlexeme, scanFrom_of_problem hleft hlexeme,
        hadvance]
    | ok result =>
      rw [scanFrom_of_lexeme (hrest.trans hleft) hlexeme, scanFrom_of_lexeme hleft hlexeme,
        hadvance]

/-- A space before a text changes nothing. -/
theorem Spells.space {text : List Char} {ts : List Token} (h : Spells text ts) :
    Spells (' ' :: text) ts := by
  intro position
  rw [scanFrom_blank (by decide)]
  exact h _

/-- A character that is not blank and begins no comment is not skipped. -/
theorem skipTrivia_plain {c : Char} {rest : List Char} (hblank : Text.isBlank c = false)
    (hslash : c = '/' → rest.head? ≠ some '/') :
    skipTrivia false (c :: rest) = ([], c :: rest) := by
  rw [skipTrivia]
  · rw [if_neg (by rw [hblank]; exact Bool.false_ne_true)]
  · rintro more rfl rfl
    exact hslash rfl rfl

/-- A text that begins with a lexeme, and not with trivia. -/
theorem Spells.lexeme {c : Char} {rest left : List Char} {t : Token} {ts : List Token}
    (h : Spells left ts) (hblank : Text.isBlank c = false)
    (hslash : c = '/' → rest.head? ≠ some '/') (hlexeme : Token.lexeme c rest = .ok (t, left)) :
    Spells (c :: rest) (t :: ts) := by
  intro position
  have hrest : (skipTrivia false (c :: rest)).2 = c :: rest := by
    rw [skipTrivia_plain hblank hslash]
  -- No lexeme is taken for the end of the input.
  have ht : (t == .eof) = false := by
    rw [beq_eq_false_iff_ne]
    rintro rfl
    exact (longestToken_of_lexeme hlexeme).2.1
  obtain ⟨tokens, hscan, hts⟩ :=
    h ((position.advance (skipTrivia false (c :: rest)).1).advance t.text.toList)
  refine ⟨⟨t, position.advance (skipTrivia false (c :: rest)).1⟩ :: tokens, ?_, ?_⟩
  · rw [scanFrom_of_lexeme hrest hlexeme]
    dsimp only
    rw [hscan]
    rfl
  · rw [beforeEnd_cons ht, hts]

/-! ### Words and marks -/

/-- No word goes on at the front of a text. -/
def Boundary (text : List Char) : Prop := ∀ c, text.head? = some c → c.isAlphanum = false

/-- A run of characters ends where a character of another kind comes. -/
theorem run_append {p : Char → Bool} {run left : List Char} (hrun : ∀ c ∈ run, p c = true)
    (hstop : ∀ c, left.head? = some c → p c = false) :
    (run ++ left).takeWhile p = run ∧ (run ++ left).dropWhile p = left := by
  rw [List.takeWhile_append_of_pos hrun, List.dropWhile_append_of_pos hrun]
  cases left with
  | nil => exact ⟨List.append_nil run, rfl⟩
  | cons c left => simp [hstop c rfl]

/-- Letters and digits are not blank, as all blank characters are elsewhere. -/
theorem isBlank_of_isAlphanum {c : Char} (h : c.isAlphanum = true) : Text.isBlank c = false := by
  delta Char.isAlphanum Char.isAlpha Char.isUpper Char.isLower Char.isDigit at h
  simp only [Bool.or_eq_true, Bool.and_eq_true, decide_eq_true_eq, UInt32.le_iff_toNat_le] at h
  have hval : c.toNat = c.val.toNat := rfl
  simp at h
  simp [Text.isBlank, Text.blankRanges]
  omega

theorem ne_slash_of_isAlphanum {c : Char} (h : c.isAlphanum = true) : c ≠ '/' := by
  rintro rfl
  exact absurd h (by decide)

/-- A name before a boundary. -/
theorem Spells.name {name : String} {left : List Char} {ts : List Token} (h : Spells left ts)
    (hname : IsName name) (hleft : Boundary left) :
    Spells (name.toList ++ left) (.ident name :: ts) := by
  obtain ⟨c, rest, rfl, hc, hrest⟩ := hname
  obtain ⟨htake, hdrop⟩ := run_append hrest hleft
  have hword : c.isAlphanum = true := Bool.or_eq_true_iff.2 (Or.inl hc)
  rw [String.toList_ofList, List.cons_append]
  refine h.lexeme (isBlank_of_isAlphanum hword)
    (fun heq => absurd heq (ne_slash_of_isAlphanum hword)) ?_
  rw [lexeme_of_isAlpha hc, htake, hdrop]

/-- A numeral before a boundary. -/
theorem Spells.numeral {digits : String} {left : List Char} {ts : List Token} (h : Spells left ts)
    (hdigits : (Token.number digits).IsLexeme) (hleft : Boundary left) :
    Spells (digits.toList ++ left) (.number digits :: ts) := by
  obtain ⟨hne, hdigits⟩ := hdigits
  obtain ⟨c, rest, hchars⟩ := List.exists_cons_of_ne_nil hne
  rw [hchars, List.forall_mem_cons] at hdigits
  -- What follows is no letter or digit, so it is no digit.
  have hstop : ∀ d, left.head? = some d → d.isDigit = false :=
    fun d hd => (Bool.or_eq_false_iff.1 (hleft d hd)).2
  obtain ⟨htake, hdrop⟩ := run_append hdigits.2 hstop
  have hword : c.isAlphanum = true := Bool.or_eq_true_iff.2 (Or.inr hdigits.1)
  rw [hchars, List.cons_append]
  refine h.lexeme (isBlank_of_isAlphanum hword)
    (fun heq => absurd heq (ne_slash_of_isAlphanum hword)) ?_
  rw [Token.lexeme, if_pos hdigits.1, htake, hdrop, ← hchars, String.ofList_toList]

theorem isBlank_of_ofChar? {c : Char} {t : Token} (h : ofChar? c = some t) :
    Text.isBlank c = false := by
  unfold ofChar? at h
  split at h
  all_goals first | decide | cases h

/-- A token of two characters is no trivia, and the second is neither a digit nor a space. -/
theorem isBlank_of_ofPair? {c d : Char} {t : Token} (h : ofPair? c d = some t) :
    Text.isBlank c = false ∧ d ≠ '/' ∧ d ≠ ' ' ∧ d.isDigit = false := by
  unfold ofPair? at h
  split at h
  all_goals first | decide | cases h

/-- A mark that does not go on as a token of two characters or as a comment. -/
theorem Spells.single {c : Char} {left : List Char} {t : Token} {ts : List Token}
    (h : Spells left ts) (hmark : ofChar? c = some t)
    (hnext : ∀ d, left.head? = some d → ofPair? c d = none ∧ (c = '/' → d ≠ '/')) :
    Spells (c :: left) (t :: ts) := by
  refine h.lexeme (isBlank_of_ofChar? hmark) (fun hc hslash => (hnext _ hslash).2 hc rfl) ?_
  have hpair : left.head?.bind (ofPair? c) = none :=
    Option.bind_eq_none_iff.2 fun d hd => (hnext d hd).1
  rw [lexeme_of_isMark (ofChar?_eq_some hmark).2.2, punctuation, hpair, hmark]

/-- A token of two characters. -/
theorem Spells.double {c d : Char} {left : List Char} {t : Token} {ts : List Token}
    (h : Spells left ts) (hpair : ofPair? c d = some t) : Spells (c :: d :: left) (t :: ts) := by
  obtain ⟨hblank, hslash, -⟩ := isBlank_of_ofPair? hpair
  refine h.lexeme hblank (fun _ heq => hslash (Option.some.inj heq)) ?_
  rw [lexeme_of_isMark (ofPair?_eq_some hpair).2.2, punctuation, List.head?_cons, Option.bind_some,
    hpair]
  rfl

/-- An operator before a space. -/
theorem Spells.operator {op : Operator} {left : List Char} {ts : List Token}
    (h : Spells (' ' :: left) ts) :
    Spells (op.symbol.toList ++ ' ' :: left) (.operator op :: ts) := by
  have hlexeme : (Token.operator op).IsLexeme := trivial
  obtain ⟨n, rest, heq, -⟩ | ⟨n, rest, heq, -⟩ | hmarks := hlexeme.cases
  · cases heq
  · cases heq
  obtain ⟨-, -, c, -, ⟨hchars, hone⟩ | ⟨d, hchars, htwo⟩⟩ := ofMarks?_eq_some hmarks
  · rw [show op.symbol.toList = [c] from hchars]
    refine h.single hone fun d hd => ?_
    obtain rfl : ' ' = d := Option.some.inj hd
    refine ⟨?_, fun _ => by decide⟩
    -- No token has a space in it.
    cases hpair : ofPair? c ' ' with
    | none => rfl
    | some t => exact absurd rfl (isBlank_of_ofPair? hpair).2.2.1
  · rw [show op.symbol.toList = [c, d] from hchars]
    exact h.double htwo

/-- A text is scanned into tokens, if a boundary comes behind it. -/
def Prints (text : List Char) (ts : List Token) : Prop :=
  ∀ left us, Boundary left → Spells left us → Spells (text ++ left) (ts ++ us)

theorem boundary_cons {c : Char} (h : c.isAlphanum = false) (text : List Char) :
    Boundary (c :: text) := by
  rintro d ⟨⟩
  exact h

end Token

/-! ### Operands -/

theorem isName_of_all {name : String} (c : Char) (rest : List Char)
    (h : name = String.ofList (c :: rest))
    (hall : (c.isAlpha && rest.all Char.isAlphanum) = true) : IsName name := by
  rw [Bool.and_eq_true, List.all_eq_true] at hall
  exact ⟨c, rest, h, hall.1, hall.2⟩

/-- The digits of a number are a numeral. -/
theorem isLexeme_numeral (n : Nat) : (Token.number (toString n)).IsLexeme := by
  rw [Nat.toString_eq_ofList_toDigits]
  refine ⟨?_, fun d hd => ?_⟩
  · rw [String.toList_ofList]
    exact Nat.toDigits_ne_nil
  · rw [String.toList_ofList] at hd
    exact Nat.isDigit_of_mem_toDigits (by decide) (by decide) hd

/-- A number is read back from its digits, whatever its size. -/
theorem readInt?_toString (n : Nat) : Text.readInt? (toString n) = some (n : Int) := by
  obtain ⟨hne, hdigits⟩ := isLexeme_numeral n
  rw [Text.readInt?_of_digits hne hdigits, Nat.toString_eq_ofList_toDigits, String.toList_ofList,
    Nat.ofDigitChars_ten_toDigits]

/-- A numeral begins with a digit, which makes no token with the sign before it. -/
theorem spells_negative {n : Nat} {left : List Char} {ts : List Token}
    (h : Token.Spells ((toString n).toList ++ left) ts) :
    Token.Spells ('-' :: ((toString n).toList ++ left)) (.operator .subtract :: ts) := by
  obtain ⟨hne, hdigits⟩ := isLexeme_numeral n
  obtain ⟨c, rest, hchars⟩ := List.exists_cons_of_ne_nil hne
  have hc : c.isDigit = true := hdigits c (by rw [hchars]; exact List.mem_cons_self)
  rw [hchars] at h ⊢
  refine h.single rfl fun d hd => ?_
  obtain rfl : c = d := Option.some.inj hd
  refine ⟨?_, fun hminus => absurd hminus (by decide)⟩
  cases hpair : Token.ofPair? '-' c with
  | none => rfl
  | some t =>
    rw [(Token.isBlank_of_ofPair? hpair).2.2.2] at hc
    exact absurd hc Bool.false_ne_true

mutual

/-- An operand with names that can be written and are not reserved, and with a key wherever there
are keys. -/
def Term.Writable : Term → Prop
  | .literal _ => True
  | .ident name => IsName name ∧ Grammar.Name name
  | .index base keys => IsName base ∧ Grammar.Name base ∧ keys ≠ [] ∧ Term.AllWritable keys

/-- Operands of this kind. -/
def Term.AllWritable : List Term → Prop
  | [] => True
  | key :: keys => key.Writable ∧ Term.AllWritable keys

end

/-- The written form of a constant is scanned into tokens that write it. -/
theorem Literal.exists_prints (value : Literal) :
    ∃ ts, Grammar.Literal ts value ∧ Token.Prints value.display.toList ts := by
  cases value with
  | int n =>
    cases n with
    | ofNat n =>
      refine ⟨_, .number (readInt?_toString n), fun left us hleft h => ?_⟩
      exact h.numeral (isLexeme_numeral n) hleft
    | negSucc n =>
      refine ⟨_, .negative (readInt?_toString (n + 1)), fun left us hleft h => ?_⟩
      -- A negative number is written as its sign and the digits of its magnitude.
      have htext : (Literal.display (.int (.negSucc n))).toList
          = '-' :: (toString (n + 1)).toList := by
        show ("-" ++ toString (n + 1)).toList = _
        rw [String.toList_append]
        rfl
      rw [htext]
      exact spells_negative (h.numeral (isLexeme_numeral (n + 1)) hleft)
  | bool b =>
    cases b with
    | true =>
      exact ⟨_, .true_, fun left us hleft h =>
        h.name (isName_of_all 't' ['r', 'u', 'e'] rfl (by decide)) hleft⟩
    | false =>
      exact ⟨_, .false_, fun left us hleft h =>
        h.name (isName_of_all 'f' ['a', 'l', 's', 'e'] rfl (by decide)) hleft⟩

theorem Term.toList_displayKeys (key : Term) (keys : List Term) :
    (Term.displayKeys (key :: keys)).toList
      = '[' :: (key.display.toList ++ ']' :: (Term.displayKeys keys).toList) := by
  simp [Term.displayKeys]

mutual

/-- The written form of an operand is scanned into tokens that write it. -/
theorem Term.exists_prints : (t : Term) → t.Writable →
    ∃ ts, Grammar.Term ts t ∧ Token.Prints t.display.toList ts
  | .literal value, _ => by
    obtain ⟨ts, hts, hprints⟩ := value.exists_prints
    exact ⟨ts, .literal hts, hprints⟩
  | .ident name, hname => ⟨_, .ident hname.2, fun _ _ hleft h => h.name hname.1 hleft⟩
  | .index base [], hbase => absurd rfl hbase.2.2.1
  | .index base (key :: keys), hbase => by
    obtain ⟨ts, hkeys, hprints⟩ := Term.exists_printsKeys (key :: keys) hbase.2.2.2
    refine ⟨_, .index hbase.2.1 hkeys, fun left us hleft h => ?_⟩
    rw [Term.display, String.toList_append, List.append_assoc]
    refine (hprints left us hleft h).name hbase.1 ?_
    rw [Term.toList_displayKeys]
    exact Token.boundary_cons (by decide) _

/-- The written form of keys is scanned into tokens that write them. -/
theorem Term.exists_printsKeys : (keys : List Term) → Term.AllWritable keys →
    ∃ ts, Grammar.Keys ts keys ∧ Token.Prints (Term.displayKeys keys).toList ts
  | [], _ => ⟨[], .nil, fun _ _ _ h => h⟩
  | key :: keys, hkeys => by
    obtain ⟨ts, hkey, hprints⟩ := key.exists_prints hkeys.1
    obtain ⟨us, hrest, hprintsRest⟩ := Term.exists_printsKeys keys hkeys.2
    refine ⟨_, .cons hkey hrest, fun left vs hleft h => ?_⟩
    have htext : (Term.displayKeys (key :: keys)).toList ++ left
        = '[' :: (key.display.toList ++ ']' :: ((Term.displayKeys keys).toList ++ left)) := by
      rw [Term.toList_displayKeys, List.cons_append, List.append_assoc]
      rfl
    have htokens : Token.opens .square :: ts ++ .closes .square :: us ++ vs
        = .opens .square :: (ts ++ .closes .square :: (us ++ vs)) := by
      simp
    rw [htext, htokens]
    -- A bracket is a boundary, and makes no token with what follows it.
    have hclose := (hprintsRest left vs hleft h).single (c := ']') rfl fun d _ => ⟨rfl, by simp⟩
    exact (hprints _ _ (Token.boundary_cons (by decide) _) hclose).single rfl fun d _ =>
      ⟨rfl, by simp⟩

end

/-! ### Expressions -/

theorem toList_displayRest (op : Operator) (ops : List Operator) (term : Term)
    (terms : List Term) :
    (Expression.displayRest (op :: ops) (term :: terms)).toList
      = ' ' :: (op.symbol.toList ++ ' ' :: (term.display.toList
        ++ (Expression.displayRest ops terms).toList)) := by
  simp [Expression.displayRest]

/-- Behind an operand comes an operator, after a space, or what comes behind the expression. -/
theorem boundary_displayRest {ops : List Operator} {terms : List Term}
    (hlength : ops.length = terms.length) {left : List Char} (hleft : Token.Boundary left) :
    Token.Boundary ((Expression.displayRest ops terms).toList ++ left) := by
  cases ops with
  | nil =>
    cases terms with
    | nil => exact hleft
    | cons term terms => cases hlength
  | cons op ops =>
    cases terms with
    | nil => cases hlength
    | cons term terms =>
      rw [toList_displayRest]
      exact Token.boundary_cons (by decide) _

/-- The operands after the first, each with its operator between spaces, are scanned into tokens
that write them. -/
theorem exists_printsRest (ops : List Operator) (terms : List Term)
    (hlength : ops.length = terms.length) (hterms : Term.AllWritable terms) :
    ∃ ts pairs, Grammar.Operands ts pairs ∧ pairs.map Prod.snd = terms ∧ pairs.map Prod.fst = ops
      ∧ Token.Prints (Expression.displayRest ops terms).toList ts := by
  induction ops generalizing terms with
  | nil =>
    obtain rfl := List.eq_nil_of_length_eq_zero hlength.symm
    exact ⟨[], [], .nil, rfl, rfl, fun _ _ _ h => h⟩
  | cons op ops ih =>
    cases terms with
    | nil => cases hlength
    | cons term terms =>
      have hrest : ops.length = terms.length := Nat.succ.inj hlength
      obtain ⟨us, pairs, hpairs, rfl, rfl, hprintsRest⟩ := ih terms hrest hterms.2
      obtain ⟨ts, hterm, hprints⟩ := term.exists_prints hterms.1
      refine ⟨.operator op :: ts ++ us, (op, term) :: pairs, .cons hterm hpairs, rfl, rfl, ?_⟩
      intro left vs hleft h
      rw [toList_displayRest]
      simp only [List.cons_append, List.append_assoc]
      -- The space in front of the next operator is the boundary.
      have hoperand := hprints _ _ (boundary_displayRest hrest hleft) (hprintsRest left vs hleft h)
      exact hoperand.space.operator.space

/-- The written form of an expression is scanned into tokens that write it. -/
theorem Expression.exists_prints (e : Expression) (hcount : e.terms.length = e.operators.length + 1)
    (hterms : Term.AllWritable e.terms) :
    ∃ ts, Grammar.Expression ts e ∧ Token.Prints e.display.toList ts := by
  obtain ⟨terms, operators⟩ := e
  cases terms with
  | nil => cases hcount
  | cons first rest =>
    have hlength : operators.length = rest.length := (Nat.succ.inj hcount).symm
    obtain ⟨us, pairs, hpairs, rfl, rfl, hprintsRest⟩ :=
      exists_printsRest operators rest hlength hterms.2
    obtain ⟨ts, hfirst, hprints⟩ := first.exists_prints hterms.1
    refine ⟨ts ++ us, .mk hfirst hpairs, fun left vs hleft h => ?_⟩
    rw [Expression.display]
    dsimp only
    rw [String.toList_append, List.append_assoc, List.append_assoc]
    exact hprints _ _ (boundary_displayRest hlength hleft) (hprintsRest left vs hleft h)

/-! ### A contract around an expression -/

/-- The source of a contract whose one function returns an expression. -/
def Expression.source (e : Expression) : String :=
  "contract C " ++ Text.braced ("func f() " ++ Text.braced ("return " ++ e.display))

/-- The contract whose one function returns an expression. -/
def Expression.contract (e : Expression) : Contract :=
  ⟨"C", [.function ⟨"f", [], none, [.returns e]⟩]⟩

/-- The tokens around those of an expression. -/
def Expression.sourceTokens (ts : List Token) : List Token :=
  Keyword.contract.token :: .ident "C" :: .opens .brace :: Keyword.func.token :: .ident "f"
    :: .opens .paren :: .closes .paren :: .opens .brace :: Keyword.return_.token
    :: (ts ++ [.closes .brace, .closes .brace])

/-- A word before a space. -/
theorem Token.Spells.word {name : String} {text : List Char} {ts : List Token}
    (h : Token.Spells text ts) (hname : IsName name) :
    Token.Spells (name.toList ++ ' ' :: text) (.ident name :: ts) :=
  h.space.name hname (Token.boundary_cons (by decide) _)

/-- A mark that begins no token of two characters and no comment. -/
theorem Token.Spells.bracket {c : Char} {text : List Char} {t : Token} {ts : List Token}
    (h : Token.Spells text ts) (hmark : Token.ofChar? c = some t)
    (hpair : ∀ d, Token.ofPair? c d = none) (hc : c ≠ '/') : Token.Spells (c :: text) (t :: ts) :=
  h.single hmark fun d _ => ⟨hpair d, fun heq => absurd heq hc⟩

/-- The words and marks of the source. -/
theorem Expression.toList_source (e : Expression) :
    e.source.toList = "contract".toList ++ ' ' :: ("C".toList ++ ' ' :: '{' :: ' '
      :: ("func".toList ++ ' ' :: ("f".toList ++ '(' :: ')' :: ' ' :: '{' :: ' '
        :: ("return".toList ++ ' ' :: (e.display.toList ++ [' ', '}', ' ', '}']))))) := by
  have hcontract : "contract C ".toList = "contract".toList ++ ' ' :: ("C".toList ++ [' ']) := by
    decide
  have hfunction : "func f() ".toList
      = "func".toList ++ ' ' :: ("f".toList ++ ['(', ')', ' ']) := by
    decide
  have hreturn : "return ".toList = "return".toList ++ [' '] := by decide
  unfold Expression.source Text.braced
  generalize e.display = text
  simp only [String.toList_append, String.toList_ofList, hcontract, hfunction, hreturn,
    List.append_assoc, List.cons_append, List.nil_append]

/-- The source is scanned into the tokens around those of the expression. -/
theorem Expression.spells_source {e : Expression} {ts : List Token}
    (h : Token.Prints e.display.toList ts) :
    Token.Spells e.source.toList (Expression.sourceTokens ts) := by
  have hcontract : IsName "contract" :=
    isName_of_all 'c' ['o', 'n', 't', 'r', 'a', 'c', 't'] rfl (by decide)
  have hC : IsName "C" := isName_of_all 'C' [] rfl (by decide)
  have hfunc : IsName "func" := isName_of_all 'f' ['u', 'n', 'c'] rfl (by decide)
  have hf : IsName "f" := isName_of_all 'f' [] rfl (by decide)
  have hreturn : IsName "return" := isName_of_all 'r' ['e', 't', 'u', 'r', 'n'] rfl (by decide)
  rw [e.toList_source]
  -- From the last mark to the first word, each before the text that is known already.
  have hclose : Token.Spells ['}'] [.closes .brace] :=
    Token.spells_nil.bracket rfl (fun _ => rfl) (by decide)
  have hend : Token.Spells [' ', '}', ' ', '}'] [.closes .brace, .closes .brace] :=
    (hclose.space.bracket rfl (fun _ => rfl) (by decide)).space
  have hbody := ((h _ _ (Token.boundary_cons (by decide) _) hend).word hreturn).space.bracket
    (c := '{') rfl (fun _ => rfl) (by decide)
  have hparens := (hbody.space.bracket (c := ')') rfl (fun _ => rfl) (by decide)).bracket
    (c := '(') rfl (fun _ => rfl) (by decide)
  have hfunction := (hparens.name hf (Token.boundary_cons (by decide) _)).word hfunc
  have hmembers := hfunction.space.bracket (c := '{') rfl (fun _ => rfl) (by decide)
  exact (hmembers.word hC).word hcontract

/-- **A written expression is read back.** Let an expression have one more operand than operators,
names that can be written and are not reserved, and a key wherever there are keys. Then the source
that returns its written form is scanned and read, as the contract that returns the expression,
whatever the size and the sign of its numbers. -/
theorem Expression.written_form_reads_back (e : Expression)
    (hcount : e.terms.length = e.operators.length + 1) (hterms : Term.AllWritable e.terms) :
    ∃ tokens, Token.scan e.source = .ok tokens ∧ Contract.parse tokens = .ok e.contract := by
  obtain ⟨ts, hts, hprints⟩ := e.exists_prints hcount hterms
  obtain ⟨tokens, hscan, hbefore⟩ := Expression.spells_source hprints .start
  refine ⟨tokens, hscan, ?_⟩
  have hC : Grammar.Name "C" := Keyword.isReserved_eq_false_iff.1 (by decide)
  have hf : Grammar.Name "f" := Keyword.isReserved_eq_false_iff.1 (by decide)
  -- The one statement is the last of its block, so nothing has to be apart from it.
  have hbody : Grammar.Statements Grammar.Apart 0 (Keyword.return_.token :: ts) [.returns e] := by
    have hapart : Grammar.Apart (.returns e) [] := by simp [Grammar.Apart]
    have hone := Grammar.Statements.cons (.returns hts) hapart .nil
    rwa [List.append_nil] at hone
  have hfunction := Grammar.Declaration.function hf .none .none (.mk hbody)
  have hcontract := Grammar.Contract.mk hC (.cons hfunction .nil)
  refine Contract.parse_of_grammar ?_ (show 1 ≤ Contract.defaultDepth by decide)
  rw [hbefore]
  simpa [Expression.sourceTokens, Expression.contract] using hcontract

/-- The entry of an entry, less a negative number, against a negative number of 21 digits. -/
theorem nested_keys_and_signs_read_back :
    let key : Term := .index "y" [.literal (.int (-1)), .ident "k"]
    let e : Expression := ⟨[.index "x" [key], .literal (.int (-7)),
      .literal (.int (-100000000000000000000))], [.subtract, .less]⟩
    e.display = "x[y[-1][k]] - -7 < -100000000000000000000"
      ∧ ∃ tokens, Token.scan e.source = .ok tokens ∧ Contract.parse tokens = .ok e.contract := by
  refine ⟨by decide +kernel, Expression.written_form_reads_back _ rfl ?_⟩
  have hx : IsName "x" ∧ Grammar.Name "x" :=
    ⟨isName_of_all 'x' [] rfl (by decide), Keyword.isReserved_eq_false_iff.1 (by decide)⟩
  have hy : IsName "y" ∧ Grammar.Name "y" :=
    ⟨isName_of_all 'y' [] rfl (by decide), Keyword.isReserved_eq_false_iff.1 (by decide)⟩
  have hk : IsName "k" ∧ Grammar.Name "k" :=
    ⟨isName_of_all 'k' [] rfl (by decide), Keyword.isReserved_eq_false_iff.1 (by decide)⟩
  have hkey : (Term.index "y" [.literal (.int (-1)), .ident "k"]).Writable :=
    ⟨hy.1, hy.2, by simp, trivial, hk, trivial⟩
  exact ⟨⟨hx.1, hx.2, by simp, hkey, trivial⟩, trivial, trivial, trivial⟩

end Covenant
