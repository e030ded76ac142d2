import Covenant.Text.Blank
import Covenant.Token

/-!
# Scanning

A source is cut from left to right into trivia and lexemes. Trivia is blank characters and comments,
which run from `//` to the end of the line. A lexeme is the longest token that starts where the
trivia ends; a place where no token starts is an error there.

* `skipTrivia` splits off the trivia at the front of a text.
* `lexeme` splits off one token.
* `scan` cuts a whole source and ends the list with `Token.eof`.
-/

namespace Covenant

/-- Why no token starts at a place. -/
inductive LexProblem where
  /-- A character that begins an operator only when doubled or followed by `=`. -/
  | incompleteOperator (written expected : String)
  | unexpectedCharacter (c : Char)
  deriving DecidableEq

/-- A problem and the place it was met. -/
structure LexError where
  position : Position
  problem : LexProblem
  deriving DecidableEq

/-- The wording of a problem. -/
def LexProblem.message : LexProblem → String
  | .incompleteOperator written expected =>
    s!"incomplete operator '{written}', expected '{expected}'"
  | .unexpectedCharacter c => s!"unexpected character '{c}'"

/-- The wording of a scan error, which begins with its place. -/
def LexError.message (e : LexError) : String :=
  s!"{e.position.display}: {e.problem.message}"

namespace Token

/-- Splits a text into the trivia at its front and the rest. `comment` says whether the text begins
inside a comment. -/
def skipTrivia : (comment : Bool) → List Char → List Char × List Char
  | _, [] => ([], [])
  | true, c :: rest =>
    let (trivia, left) := skipTrivia (c != '\n') rest
    (c :: trivia, left)
  | false, '/' :: '/' :: rest =>
    let (trivia, left) := skipTrivia true rest
    ('/' :: '/' :: trivia, left)
  | false, c :: rest =>
    if Text.isBlank c then
      let (trivia, left) := skipTrivia false rest
      (c :: trivia, left)
    else ([], c :: rest)

/-- The tokens of two characters that are neither letters nor digits. -/
def ofPair? : Char → Char → Option Token
  | '=', '=' => some (.operator .equal)
  | '!', '=' => some (.operator .notEqual)
  | '&', '&' => some (.operator .and)
  | '|', '|' => some (.operator .or)
  | '>', '=' => some (.operator .greaterEqual)
  | '<', '=' => some (.operator .lessEqual)
  | '-', '>' => some .arrow
  | '=', '>' => some .fatArrow
  | _, _ => none

/-- The tokens of one character that is neither a letter nor a digit. -/
def ofChar? : Char → Option Token
  | '{' => some (.opens .brace)
  | '}' => some (.closes .brace)
  | '(' => some (.opens .paren)
  | ')' => some (.closes .paren)
  | '[' => some (.opens .square)
  | ']' => some (.closes .square)
  | ',' => some .comma
  | ':' => some .colon
  | ';' => some .semicolon
  | '=' => some .assign
  | '<' => some (.operator .less)
  | '>' => some (.operator .greater)
  | '+' => some (.operator .add)
  | '-' => some (.operator .subtract)
  | '*' => some (.operator .multiply)
  | '/' => some (.operator .divide)
  | '%' => some (.operator .modulo)
  | _ => none

/-- What is wrong at a character that starts no token. -/
def problemAt : Char → LexProblem
  | '!' => .incompleteOperator "!" "!="
  | '&' => .incompleteOperator "&" "&&"
  | '|' => .incompleteOperator "|" "||"
  | c => .unexpectedCharacter c

/-- A token of punctuation at the front of a text; two characters win over one. -/
def punctuation (c : Char) (rest : List Char) : Except LexProblem (Token × List Char) :=
  match rest.head?.bind (ofPair? c) with
  | some token => .ok (token, rest.tail)
  | none =>
    match ofChar? c with
    | some token => .ok (token, rest)
    | none => .error (problemAt c)

/-- The longest token that starts with the character `c` and goes on in `rest`, and the text after
it. -/
def lexeme (c : Char) (rest : List Char) : Except LexProblem (Token × List Char) :=
  if c.isDigit then
    .ok (.number (String.ofList (c :: rest.takeWhile Char.isDigit)), rest.dropWhile Char.isDigit)
  else if c.isAlpha then
    .ok (.ident (String.ofList (c :: rest.takeWhile Char.isAlphanum)),
      rest.dropWhile Char.isAlphanum)
  else punctuation c rest

theorem length_dropWhile_le (p : Char → Bool) (text : List Char) :
    (text.dropWhile p).length ≤ text.length :=
  (List.dropWhile_sublist p).length_le

/-- A lexeme takes at least its first character. -/
theorem length_lexeme_le {c : Char} {rest left : List Char} {token : Token}
    (h : lexeme c rest = .ok (token, left)) : left.length ≤ rest.length := by
  unfold lexeme at h
  split at h
  · cases h; exact length_dropWhile_le _ _
  · split at h
    · cases h; exact length_dropWhile_le _ _
    · unfold punctuation at h
      split at h
      · cases h; simp
      · split at h
        · cases h; exact Nat.le_refl _
        · cases h

theorem length_skipTrivia_le (comment : Bool) (text : List Char) :
    (skipTrivia comment text).2.length ≤ text.length := by
  fun_induction skipTrivia comment text <;> simp_all <;> omega

-- The equations `h` and `hl` are used by the termination proof alone.
set_option linter.unusedVariables false in
/-- Cuts a text that begins at `position` into tokens. -/
def scanFrom (position : Position) (text : List Char) : Except LexError (List Located) :=
  let start := position.advance (skipTrivia false text).1
  match h : (skipTrivia false text).2 with
  | [] => .ok [⟨.eof, start⟩]
  | c :: rest =>
    match hl : lexeme c rest with
    | .error problem => .error ⟨start, problem⟩
    | .ok (token, left) =>
      match scanFrom (start.advance token.text.toList) left with
      | .error e => .error e
      | .ok tokens => .ok (⟨token, start⟩ :: tokens)
termination_by text.length
decreasing_by
  have shorter := length_lexeme_le hl
  have within := length_skipTrivia_le false text
  rw [h, List.length_cons] at within
  omega

/-- Nothing but trivia scans to the end of the input alone. -/
theorem scanFrom_of_trivia {position : Position} {text : List Char}
    (h : (skipTrivia false text).2 = []) :
    scanFrom position text = .ok [⟨.eof, position.advance (skipTrivia false text).1⟩] := by
  rw [scanFrom]
  split
  · rfl
  · next h' => rw [h] at h'; contradiction

/-- A scan that meets no lexeme after the trivia fails there. -/
theorem scanFrom_of_problem {position : Position} {text rest : List Char} {c : Char}
    {problem : LexProblem} (h : (skipTrivia false text).2 = c :: rest)
    (hl : lexeme c rest = .error problem) :
    scanFrom position text = .error ⟨position.advance (skipTrivia false text).1, problem⟩ := by
  rw [scanFrom]
  split
  · next h' => rw [h] at h'; contradiction
  · next h' =>
    rw [h] at h'
    cases h'
    split
    · next hl' => rw [hl] at hl'; cases hl'; rfl
    · next hl' => rw [hl] at hl'; contradiction

/-- A scan that meets a lexeme after the trivia begins with it and goes on behind it. -/
theorem scanFrom_of_lexeme {position : Position} {text rest left : List Char} {c : Char}
    {token : Token} (h : (skipTrivia false text).2 = c :: rest)
    (hl : lexeme c rest = .ok (token, left)) :
    scanFrom position text =
      let start := position.advance (skipTrivia false text).1
      (scanFrom (start.advance token.text.toList) left).map (⟨token, start⟩ :: ·) := by
  rw [scanFrom]
  split
  · next h' => rw [h] at h'; contradiction
  · next h' =>
    rw [h] at h'
    cases h'
    split
    · next hl' => rw [hl] at hl'; contradiction
    · next hl' =>
      rw [hl] at hl'
      cases hl'
      dsimp only
      split
      · next hs => simp [hs, Except.map]
      · next hs => simp [hs, Except.map]

/-- The tokens of a source, the last of them `Token.eof` at its end. -/
def scan (source : String) : Except LexError (List Located) :=
  scanFrom .start source.toList

end Token

end Covenant
