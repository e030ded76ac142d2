import Covenant.Proofs.Contract.Names

/-!
# Trivia and lexemes

What one step of scanning takes, said without a scanner. Trivia is a run of blank characters and of
comments, which go on to the end of the line (`Token.Trivia`). A lexeme is the text of a token that
can be written (`Token.IsLexeme`). Scanning takes the longest trivia and then the longest token: a
number and an identifier go on as far as they can, and of punctuation two characters win over one.

* `Token.skipTrivia_eq_iff` and `Token.lexeme_eq_ok_iff` say that a step takes what is longest, and
  `Token.lexeme_eq_error_iff` when there is no token to take.
* `Token.IsLexeme.first` tells the kind of a lexeme from its first character, so lexemes with the
  same text are the same token (`Token.eq_of_text_eq`).
-/

namespace Covenant

namespace Token

/-! ### Trivia -/

/-- A run of blank characters and comments that stands before `rest`. A comment goes on to the end
of its line, or to the end of the text. -/
inductive Trivia : List Char → List Char → Prop
  | nil (rest : List Char) : Trivia [] rest
  | blank {c : Char} {trivia rest : List Char} (hc : Text.isBlank c = true)
    (h : Trivia trivia rest) : Trivia (c :: trivia) rest
  | comment {body trivia rest : List Char} (hbody : '\n' ∉ body)
    (hend : ∀ c, (trivia ++ rest).head? = some c → c = '\n') (h : Trivia trivia rest) :
    Trivia ('/' :: '/' :: body ++ trivia) rest

/-- Trivia before `rest` that is as long as it can be. -/
def LongestTrivia (trivia rest : List Char) : Prop :=
  Trivia trivia rest ∧ ∀ other left, other ++ left = trivia ++ rest → Trivia other left →
    other.length ≤ trivia.length

theorem ne_slash_of_isBlank {c : Char} (h : Text.isBlank c = true) : c ≠ '/' := by
  rintro rfl
  exact absurd h (by decide)

/-- A blank character is skipped. -/
theorem skipTrivia_blank {c : Char} (h : Text.isBlank c = true) (text : List Char) :
    skipTrivia false (c :: text) = (c :: (skipTrivia false text).1, (skipTrivia false text).2) := by
  have hslash := ne_slash_of_isBlank h
  rw [skipTrivia]
  · rw [if_pos h]
  · rintro rest rfl
    exact absurd rfl hslash

/-- A comment is skipped up to the end of its line. The line feed is blank, so it does not matter to
which of the two it is counted. -/
theorem skipTrivia_body {body : List Char} (hbody : '\n' ∉ body) {text : List Char}
    (hend : ∀ c, text.head? = some c → c = '\n') :
    skipTrivia true (body ++ text)
      = (body ++ (skipTrivia false text).1, (skipTrivia false text).2) := by
  induction body with
  | nil =>
    cases text with
    | nil => rfl
    | cons c text =>
      obtain rfl := hend c rfl
      rw [skipTrivia_blank (by decide)]
      rfl
  | cons c body ih =>
    rw [List.mem_cons, not_or] at hbody
    have hc : (c != '\n') = true := bne_iff_ne.2 fun h => hbody.1 h.symm
    rw [List.cons_append, skipTrivia, hc, ih hbody.2]
    rfl

/-- Trivia is skipped, and whatever trivia comes behind it. -/
theorem skipTrivia_of_trivia {trivia rest : List Char} (h : Trivia trivia rest) :
    skipTrivia false (trivia ++ rest)
      = (trivia ++ (skipTrivia false rest).1, (skipTrivia false rest).2) := by
  induction h with
  | nil rest => rfl
  | blank hc h ih => rw [List.cons_append, skipTrivia_blank hc, ih]; rfl
  | comment hbody hend h ih =>
    rw [List.append_assoc, List.cons_append, List.cons_append, skipTrivia,
      skipTrivia_body hbody hend, ih]
    simp

/-- Trivia, or the rest of a comment and the trivia behind it. -/
def TriviaWithin : (comment : Bool) → List Char → List Char → Prop
  | false, trivia, rest => Trivia trivia rest
  | true, trivia, rest => ∃ body more, trivia = body ++ more ∧ '\n' ∉ body
      ∧ (∀ c, (more ++ rest).head? = some c → c = '\n') ∧ Trivia more rest

/-- What is skipped is trivia, and nothing is lost. -/
theorem triviaWithin_skipTrivia (comment : Bool) (text : List Char) :
    (skipTrivia comment text).1 ++ (skipTrivia comment text).2 = text
      ∧ TriviaWithin comment (skipTrivia comment text).1 (skipTrivia comment text).2 := by
  -- One case for each equation: the end, inside a comment, its two slashes, a blank and anything
  -- else.
  fun_induction skipTrivia comment text with
  | case1 comment =>
    cases comment with
    | false => exact ⟨rfl, .nil _⟩
    | true => exact ⟨rfl, [], [], rfl, List.not_mem_nil, by simp, .nil _⟩
  | case2 c rest trivia left hskip ih =>
    rw [hskip] at ih
    obtain ⟨hjoin, htrivia⟩ := ih
    refine ⟨congrArg (c :: ·) hjoin, ?_⟩
    by_cases hc : c = '\n'
    · -- The line feed ends the comment and is blank.
      subst hc
      exact ⟨[], '\n' :: trivia, rfl, List.not_mem_nil, fun c h => (Option.some.inj h).symm,
        .blank (by decide) htrivia⟩
    · rw [bne_iff_ne.2 hc] at htrivia
      obtain ⟨body, more, rfl, hbody, hend, hmore⟩ := htrivia
      refine ⟨c :: body, more, rfl, ?_, hend, hmore⟩
      rw [List.mem_cons, not_or]
      exact ⟨fun h => hc h.symm, hbody⟩
  | case3 rest trivia left hskip ih =>
    rw [hskip] at ih
    obtain ⟨hjoin, body, more, rfl, hbody, hend, hmore⟩ := ih
    exact ⟨congrArg ('/' :: '/' :: ·) hjoin, .comment hbody hend hmore⟩
  | case4 c rest hslash hblank trivia left hskip ih =>
    rw [hskip] at ih
    exact ⟨congrArg (c :: ·) ih.1, .blank hblank ih.2⟩
  | case5 c rest hslash hblank => exact ⟨rfl, .nil _⟩

/-- Skipping takes the longest trivia. -/
theorem skipTrivia_eq_iff {text trivia rest : List Char} :
    skipTrivia false text = (trivia, rest) ↔ text = trivia ++ rest ∧ LongestTrivia trivia rest := by
  have hlongest : ∀ other left, other ++ left = text → Trivia other left →
      other.length ≤ (skipTrivia false text).1.length := by
    rintro other left rfl hother
    rw [skipTrivia_of_trivia hother, List.length_append]
    exact Nat.le_add_right _ _
  obtain ⟨hjoin, hskipped⟩ := triviaWithin_skipTrivia false text
  constructor
  · intro h
    rw [h] at hjoin hskipped hlongest
    refine ⟨hjoin.symm, hskipped, fun other left heq => ?_⟩
    exact hlongest other left (heq.trans hjoin)
  · rintro ⟨rfl, htrivia, hmax⟩
    -- Two runs of trivia at the front of a text that are both longest are the same.
    have hle := hlongest trivia rest rfl htrivia
    have hge := hmax _ _ hjoin hskipped
    obtain ⟨hfirst, hsecond⟩ := List.append_inj hjoin (Nat.le_antisymm hge hle)
    exact Prod.ext hfirst hsecond

/-! ### Lexemes -/

/-- A token that can be written: not the end of the source, and a number or an identifier only with
the characters it may have. -/
def IsLexeme : Token → Prop
  | .ident name => IsName name
  | .number digits => digits.toList ≠ [] ∧ ∀ d ∈ digits.toList, d.isDigit = true
  | .eof => False
  | _ => True

/-- A token before `rest` that is as long as any that could stand there. -/
def LongestToken (token : Token) (rest : List Char) : Prop :=
  token.IsLexeme ∧ ∀ other : Token, other.IsLexeme →
    other.text.toList <+: token.text.toList ++ rest →
    other.text.toList.length ≤ token.text.toList.length

/-- No token starts at the front of a text. -/
def StartsNone (text : List Char) : Prop :=
  ∀ token : Token, token.IsLexeme → ¬ token.text.toList <+: text

/-- A character that no number and no identifier begins with. -/
def IsMark (c : Char) : Prop := c.isDigit = false ∧ c.isAlpha = false

/-- No letter is a digit. -/
theorem not_isDigit_of_isAlpha {c : Char} (h : c.isAlpha = true) : c.isDigit = false := by
  delta Char.isAlpha Char.isUpper Char.isLower at h
  delta Char.isDigit
  simp only [Bool.or_eq_true, Bool.and_eq_true, decide_eq_true_eq, Bool.and_eq_false_iff,
    decide_eq_false_iff_not, UInt32.le_iff_toNat_le] at h ⊢
  simp at h ⊢
  omega

/-- The tokens of one character. -/
theorem ofChar?_eq_some {c : Char} {token : Token} (h : ofChar? c = some token) :
    token.text.toList = [c] ∧ token.IsLexeme ∧ IsMark c := by
  unfold ofChar? at h
  split at h
  all_goals cases h
  all_goals exact ⟨rfl, trivial, by decide, by decide⟩

/-- The tokens of two characters. -/
theorem ofPair?_eq_some {c d : Char} {token : Token} (h : ofPair? c d = some token) :
    token.text.toList = [c, d] ∧ token.IsLexeme ∧ IsMark c := by
  unfold ofPair? at h
  split at h
  all_goals cases h
  all_goals exact ⟨rfl, trivial, by decide, by decide⟩

/-- The token of punctuation with the given characters. -/
def ofMarks? : List Char → Option Token
  | [c] => ofChar? c
  | [c, d] => ofPair? c d
  | _ => none

/-- How a lexeme is written: digits, a letter with letters and digits behind it, or punctuation. -/
theorem IsLexeme.cases {token : Token} (h : token.IsLexeme) :
    (∃ c rest, token = .number (String.ofList (c :: rest)) ∧ ∀ d ∈ c :: rest, d.isDigit = true)
      ∨ (∃ c rest, token = .ident (String.ofList (c :: rest)) ∧ c.isAlpha = true
        ∧ ∀ d ∈ rest, d.isAlphanum = true)
      ∨ ofMarks? token.text.toList = some token := by
  cases token with
  | number digits =>
    obtain ⟨hne, hdigits⟩ := h
    obtain ⟨c, rest, hchars⟩ := List.exists_cons_of_ne_nil hne
    refine Or.inl ⟨c, rest, ?_, hchars ▸ hdigits⟩
    rw [← hchars, String.ofList_toList]
  | ident name =>
    obtain ⟨c, rest, rfl, hc, hrest⟩ := h
    exact Or.inr (Or.inl ⟨c, rest, rfl, hc, hrest⟩)
  | opens bracket => exact Or.inr (Or.inr (by cases bracket <;> rfl))
  | closes bracket => exact Or.inr (Or.inr (by cases bracket <;> rfl))
  | operator op => exact Or.inr (Or.inr (by cases op <;> rfl))
  | eof => exact False.elim h
  | _ => exact Or.inr (Or.inr rfl)

/-- Punctuation has one or two characters, and the first is a mark. -/
theorem ofMarks?_eq_some {chars : List Char} {token : Token} (h : ofMarks? chars = some token) :
    token.text.toList = chars ∧ token.IsLexeme
      ∧ ∃ c, IsMark c ∧ (chars = [c] ∧ ofChar? c = some token
        ∨ ∃ d, chars = [c, d] ∧ ofPair? c d = some token) := by
  unfold ofMarks? at h
  split at h
  · obtain ⟨htext, hlexeme, hmark⟩ := ofChar?_eq_some h
    exact ⟨htext, hlexeme, _, hmark, Or.inl ⟨rfl, h⟩⟩
  · obtain ⟨htext, hlexeme, hmark⟩ := ofPair?_eq_some h
    exact ⟨htext, hlexeme, _, hmark, Or.inr ⟨_, rfl, h⟩⟩
  · cases h

/-- A lexeme is not empty, and its first character tells its kind. -/
theorem IsLexeme.first {token : Token} (h : token.IsLexeme) :
    ∃ c rest, token.text.toList = c :: rest
      ∧ (c.isDigit = true → token = .number (String.ofList (c :: rest))
        ∧ ∀ d ∈ rest, d.isDigit = true)
      ∧ (c.isAlpha = true → token = .ident (String.ofList (c :: rest))
        ∧ ∀ d ∈ rest, d.isAlphanum = true)
      ∧ (IsMark c → ofMarks? (c :: rest) = some token) := by
  -- One kind is given, and the first character rules out the other two.
  rcases h.cases with ⟨c, rest, rfl, hdigits⟩ | ⟨c, rest, rfl, hc, hrest⟩ | hmarks
  · rw [List.forall_mem_cons] at hdigits
    refine ⟨c, rest, String.toList_ofList, fun _ => ⟨rfl, hdigits.2⟩, fun halpha => ?_,
      fun hmark => ?_⟩
    · rw [not_isDigit_of_isAlpha halpha] at hdigits
      exact absurd hdigits.1 Bool.false_ne_true
    · rw [hmark.1] at hdigits
      exact absurd hdigits.1 Bool.false_ne_true
  · refine ⟨c, rest, String.toList_ofList, fun hdigit => ?_, fun _ => ⟨rfl, hrest⟩, fun hmark => ?_⟩
    · rw [not_isDigit_of_isAlpha hc] at hdigit
      exact absurd hdigit Bool.false_ne_true
    · rw [hmark.2] at hc
      exact absurd hc Bool.false_ne_true
  · obtain ⟨-, -, c, hmark, hchars⟩ := ofMarks?_eq_some hmarks
    have htext : ∃ rest, token.text.toList = c :: rest := by
      rcases hchars with ⟨hone, -⟩ | ⟨d, htwo, -⟩
      · exact ⟨[], hone⟩
      · exact ⟨[d], htwo⟩
    obtain ⟨rest, htext⟩ := htext
    refine ⟨c, rest, htext, fun hdigit => ?_, fun halpha => ?_, fun _ => htext ▸ hmarks⟩
    · rw [hmark.1] at hdigit
      exact absurd hdigit Bool.false_ne_true
    · rw [hmark.2] at halpha
      exact absurd halpha Bool.false_ne_true

/-- A character is a digit, a letter or a mark. -/
theorem isDigit_or_isAlpha_or_isMark (c : Char) :
    c.isDigit = true ∨ c.isAlpha = true ∨ IsMark c := by
  cases hdigit : c.isDigit with
  | true => exact Or.inl rfl
  | false =>
    cases halpha : c.isAlpha with
    | true => exact Or.inr (Or.inl rfl)
    | false => exact Or.inr (Or.inr ⟨hdigit, halpha⟩)

/-- Lexemes with the same text are the same token. -/
theorem eq_of_text_eq {a b : Token} (ha : a.IsLexeme) (hb : b.IsLexeme)
    (h : a.text.toList = b.text.toList) : a = b := by
  obtain ⟨c, rest, htext, hnumber, hident, hmarks⟩ := ha.first
  obtain ⟨c', rest', htext', hnumber', hident', hmarks'⟩ := hb.first
  rw [htext, htext'] at h
  obtain ⟨rfl, rfl⟩ := List.cons.inj h
  -- The first character says which kind both are of.
  rcases isDigit_or_isAlpha_or_isMark c with hdigit | halpha | hmark
  · rw [(hnumber hdigit).1, (hnumber' hdigit).1]
  · rw [(hident halpha).1, (hident' halpha).1]
  · exact Option.some.inj ((hmarks hmark).symm.trans (hmarks' hmark))

/-! ### One lexeme -/

/-- A run at the front of a text is no longer than the longest one. -/
theorem length_le_takeWhile {p : Char → Bool} {run text : List Char} (hrun : ∀ d ∈ run, p d = true)
    (h : run <+: text) : run.length ≤ (text.takeWhile p).length := by
  obtain ⟨more, rfl⟩ := h
  rw [List.takeWhile_append_of_pos hrun, List.length_append]
  exact Nat.le_add_right _ _

/-- The longest token is a run of characters, if no other token has any but these behind its
first. -/
theorem longestToken_of_run {p : Char → Bool} {c : Char} {rest : List Char} {token : Token}
    (hlexeme : token.IsLexeme) (htext : token.text.toList = c :: rest.takeWhile p)
    (hothers : ∀ (other : Token) (more : List Char), other.IsLexeme →
      other.text.toList = c :: more → ∀ d ∈ more, p d = true) :
    c :: rest = token.text.toList ++ rest.dropWhile p ∧ LongestToken token (rest.dropWhile p) := by
  have hjoin : c :: rest = token.text.toList ++ rest.dropWhile p := by
    rw [htext, List.cons_append, List.takeWhile_append_dropWhile]
  refine ⟨hjoin, hlexeme, fun other hother hfront => ?_⟩
  -- Any other token has the same first character, and then a run of these.
  obtain ⟨first, more, hfirst, -⟩ := hother.first
  rw [← hjoin, hfirst, List.cons_prefix_cons] at hfront
  obtain ⟨rfl, hmore⟩ := hfront
  rw [hfirst, htext, List.length_cons, List.length_cons]
  exact Nat.succ_le_succ (length_le_takeWhile (hothers other more hother hfirst) hmore)

/-- Punctuation at the front of a text: two characters that make a token, or else one. -/
theorem punctuation_front {c : Char} (hmark : IsMark c) {rest : List Char} {token : Token}
    (hlexeme : token.IsLexeme) (hfront : token.text.toList <+: c :: rest) :
    rest.head?.bind (ofPair? c) = some token ∧ token.text.toList.length = 2
      ∨ ofChar? c = some token ∧ token.text.toList.length = 1 := by
  obtain ⟨first, more, htext, -, -, hmarks⟩ := hlexeme.first
  rw [htext, List.cons_prefix_cons] at hfront
  obtain ⟨rfl, d, rfl⟩ := hfront
  -- There is no punctuation of three characters.
  obtain ⟨-, -, c', -, hone | ⟨d, htwo⟩⟩ := ofMarks?_eq_some (hmarks hmark)
  · obtain ⟨hchars, hone⟩ := hone
    obtain ⟨rfl, rfl⟩ := List.cons.inj hchars
    exact Or.inr ⟨hone, by rw [htext]; rfl⟩
  · obtain ⟨hchars, htwo⟩ := htwo
    obtain ⟨rfl, rfl⟩ := List.cons.inj hchars
    exact Or.inl ⟨htwo, by rw [htext]; rfl⟩

/-- Punctuation that is scanned is the longest token at the front. -/
theorem longestToken_of_punctuation {c : Char} (hmark : IsMark c) {rest left : List Char}
    {token : Token} (h : punctuation c rest = .ok (token, left)) :
    c :: rest = token.text.toList ++ left ∧ LongestToken token left := by
  rw [punctuation] at h
  cases hpair : rest.head?.bind (ofPair? c) with
  | some pair =>
    rw [hpair] at h
    cases h
    obtain ⟨d, hd, hof⟩ := Option.bind_eq_some_iff.1 hpair
    obtain ⟨more, rfl⟩ := List.head?_eq_some_iff.1 hd
    obtain ⟨htext, hlexeme, -⟩ := ofPair?_eq_some hof
    rw [LongestToken, htext]
    refine ⟨rfl, hlexeme, fun other hother hfront => ?_⟩
    rcases punctuation_front hmark hother hfront with ⟨-, hlength⟩ | ⟨-, hlength⟩
    · exact Nat.le_of_eq hlength
    · rw [hlength]
      exact Nat.le_succ 1
  | none =>
    rw [hpair] at h
    dsimp only at h
    cases hchar : ofChar? c with
    | none =>
      rw [hchar] at h
      cases h
    | some single =>
      rw [hchar] at h
      cases h
      obtain ⟨htext, hlexeme, -⟩ := ofChar?_eq_some hchar
      rw [LongestToken, htext]
      refine ⟨rfl, hlexeme, fun other hother hfront => ?_⟩
      -- A longer token would have made a pair.
      rcases punctuation_front hmark hother hfront with ⟨htwo, -⟩ | ⟨-, hlength⟩
      · exact absurd (hpair.symm.trans htwo) (by simp)
      · exact Nat.le_of_eq hlength

/-- Where no punctuation is found, no token starts. -/
theorem startsNone_of_punctuation {c : Char} (hmark : IsMark c) {rest : List Char}
    {problem : LexProblem} (h : punctuation c rest = .error problem) :
    StartsNone (c :: rest) ∧ problem = problemAt c := by
  rw [punctuation] at h
  cases hpair : rest.head?.bind (ofPair? c) with
  | some pair =>
    rw [hpair] at h
    cases h
  | none =>
    rw [hpair] at h
    dsimp only at h
    cases hchar : ofChar? c with
    | some single =>
      rw [hchar] at h
      cases h
    | none =>
      rw [hchar] at h
      cases h
      refine ⟨fun token htoken hfront => ?_, rfl⟩
      rcases punctuation_front hmark htoken hfront with ⟨htwo, -⟩ | ⟨hone, -⟩
      · exact absurd (hpair.symm.trans htwo) (by simp)
      · exact absurd (hchar.symm.trans hone) (by simp)

theorem lexeme_of_isMark {c : Char} (hmark : IsMark c) (rest : List Char) :
    lexeme c rest = punctuation c rest := by
  rw [lexeme, if_neg (by rw [hmark.1]; exact Bool.false_ne_true),
    if_neg (by rw [hmark.2]; exact Bool.false_ne_true)]

/-- A letter begins an identifier. -/
theorem lexeme_of_isAlpha {c : Char} (halpha : c.isAlpha = true) (rest : List Char) :
    lexeme c rest = .ok (.ident (String.ofList (c :: rest.takeWhile Char.isAlphanum)),
      rest.dropWhile Char.isAlphanum) := by
  rw [lexeme, if_neg (by rw [not_isDigit_of_isAlpha halpha]; exact Bool.false_ne_true),
    if_pos halpha]

/-- A token that is scanned stands at the front, and none that could stand there is longer. -/
theorem longestToken_of_lexeme {c : Char} {rest left : List Char} {token : Token}
    (h : lexeme c rest = .ok (token, left)) :
    c :: rest = token.text.toList ++ left ∧ LongestToken token left := by
  rcases isDigit_or_isAlpha_or_isMark c with hdigit | halpha | hmark
  · rw [lexeme, if_pos hdigit] at h
    cases h
    refine longestToken_of_run ⟨by simp, ?_⟩ String.toList_ofList fun other more hother htext => ?_
    · rw [String.toList_ofList, List.forall_mem_cons]
      exact ⟨hdigit, List.all_eq_true.1 List.all_takeWhile⟩
    · obtain ⟨first, more', htext', hnumber, -⟩ := hother.first
      obtain ⟨rfl, rfl⟩ := List.cons.inj (htext.symm.trans htext')
      exact (hnumber hdigit).2
  · rw [lexeme_of_isAlpha halpha] at h
    cases h
    refine longestToken_of_run ⟨c, _, rfl, halpha, List.all_eq_true.1 List.all_takeWhile⟩
      String.toList_ofList fun other more hother htext => ?_
    obtain ⟨first, more', htext', -, hident, -⟩ := hother.first
    obtain ⟨rfl, rfl⟩ := List.cons.inj (htext.symm.trans htext')
    exact (hident halpha).2
  · rw [lexeme_of_isMark hmark] at h
    exact longestToken_of_punctuation hmark h

/-- Where scanning finds no token, none starts. -/
theorem startsNone_of_lexeme {c : Char} {rest : List Char} {problem : LexProblem}
    (h : lexeme c rest = .error problem) : StartsNone (c :: rest) ∧ problem = problemAt c := by
  rcases isDigit_or_isAlpha_or_isMark c with hdigit | halpha | hmark
  · rw [lexeme, if_pos hdigit] at h
    cases h
  · rw [lexeme_of_isAlpha halpha] at h
    cases h
  · rw [lexeme_of_isMark hmark] at h
    exact startsNone_of_punctuation hmark h

/-- Scanning takes the longest token. -/
theorem lexeme_eq_ok_iff {c : Char} {rest left : List Char} {token : Token} :
    lexeme c rest = .ok (token, left)
      ↔ c :: rest = token.text.toList ++ left ∧ LongestToken token left := by
  refine ⟨longestToken_of_lexeme, fun ⟨hjoin, hlexeme, hmax⟩ => ?_⟩
  cases h : lexeme c rest with
  | error problem =>
    refine absurd ?_ ((startsNone_of_lexeme h).1 token hlexeme)
    rw [hjoin]
    exact List.prefix_append _ _
  | ok result =>
    obtain ⟨other, behind⟩ := result
    obtain ⟨hother, hlexeme', hmax'⟩ := longestToken_of_lexeme h
    -- Two tokens at the front of a text that are both longest have the same text.
    have hlengths : token.text.toList.length = other.text.toList.length := by
      apply Nat.le_antisymm
      · exact hmax' token hlexeme ⟨left, by rw [← hjoin, hother]⟩
      · exact hmax other hlexeme' ⟨behind, by rw [← hjoin, hother]⟩
    obtain ⟨htext, rfl⟩ := List.append_inj (hjoin.symm.trans hother) hlengths
    rw [eq_of_text_eq hlexeme hlexeme' htext]

/-- Scanning finds a problem where no token starts. -/
theorem lexeme_eq_error_iff {c : Char} {rest : List Char} {problem : LexProblem} :
    lexeme c rest = .error problem ↔ StartsNone (c :: rest) ∧ problem = problemAt c := by
  refine ⟨startsNone_of_lexeme, fun ⟨hnone, hproblem⟩ => ?_⟩
  cases h : lexeme c rest with
  | error other => rw [hproblem, (startsNone_of_lexeme h).2]
  | ok result =>
    obtain ⟨hjoin, hlexeme, -⟩ := longestToken_of_lexeme h
    refine absurd ?_ (hnone result.1 hlexeme)
    rw [hjoin]
    exact List.prefix_append _ _

end Token

end Covenant
