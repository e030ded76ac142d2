import Covenant.Operator
import Covenant.Text.Quoted

/-!
# Tokens

The lexical units of a contract source and where they stand in it. Keywords are ordinary
identifiers here: what a word means is decided by its place in the grammar.

* `Token.text` is the lexeme as written.
* `Token.kind` and `Token.found` are the words error messages use for a token.
* `Token.name` is the diagnostic name.
-/

namespace Covenant

/-- A place in a source text: line and column, both counted from one. -/
structure Position where
  line : Nat
  column : Nat
  deriving DecidableEq

namespace Position

/-- Where a source text begins. -/
def start : Position := ⟨1, 1⟩

/-- The position after a character: a line feed begins a line, any other takes a column. -/
def next (p : Position) (c : Char) : Position :=
  if c == '\n' then ⟨p.line + 1, 1⟩ else ⟨p.line, p.column + 1⟩

/-- The position after a run of characters. -/
def advance (p : Position) (text : List Char) : Position :=
  text.foldl next p

/-- The written form, `line:column`. -/
def display (p : Position) : String := s!"{p.line}:{p.column}"

end Position

/-- The three kinds of bracket. -/
inductive Bracket where
  | brace
  | paren
  | square
  deriving DecidableEq

namespace Bracket

/-- The opening character. -/
def opening : Bracket → String
  | .brace => String.singleton '{'
  | .paren => "("
  | .square => "["

/-- The closing character. -/
def closing : Bracket → String
  | .brace => String.singleton '}'
  | .paren => ")"
  | .square => "]"

end Bracket

/-- A lexical unit. -/
inductive Token where
  | ident (name : String)
  | number (digits : String)
  | opens (bracket : Bracket)
  | closes (bracket : Bracket)
  | comma
  | colon
  | semicolon
  | assign
  | operator (op : Operator)
  | arrow
  | fatArrow
  /-- The end of the source, always the last token of a scan. -/
  | eof
  deriving DecidableEq

namespace Token

/-- The lexeme as it stands in the source. -/
def text : Token → String
  | .ident name => name
  | .number digits => digits
  | .opens bracket => bracket.opening
  | .closes bracket => bracket.closing
  | .comma => ","
  | .colon => ":"
  | .semicolon => ";"
  | .assign => "="
  | .operator op => op.symbol
  | .arrow => "->"
  | .fatArrow => "=>"
  | .eof => "EOF"

/-- What messages call a token of this kind when they expect one. -/
def kind : Token → String
  | .ident _ => "identifier"
  | .number _ => "number"
  | .eof => "end of input"
  | token => "'" ++ token.text ++ "'"

/-- What messages call this token when they meet it. -/
def found : Token → String
  | .ident name => "identifier '" ++ name ++ "'"
  | .number digits => "number " ++ digits
  | token => token.kind

/-- The diagnostic name of an operator token. -/
def operatorName : Operator → String
  | .add => "Plus"
  | .subtract => "Minus"
  | .multiply => "Star"
  | .divide => "Slash"
  | .modulo => "Percent"
  | .equal => "EqEq"
  | .notEqual => "NotEq"
  | .less => "Lt"
  | .greater => "Gt"
  | .lessEqual => "LtEq"
  | .greaterEqual => "GtEq"
  | .and => "AndAnd"
  | .or => "OrOr"

/-- The diagnostic name of a token; identifiers and numbers show their text in quotes. -/
def name : Token → String
  | .ident name => s!"Ident({Text.quoted name})"
  | .number digits => s!"Number({Text.quoted digits})"
  | .opens .brace => "LBrace"
  | .closes .brace => "RBrace"
  | .opens .paren => "LParen"
  | .closes .paren => "RParen"
  | .opens .square => "LBracket"
  | .closes .square => "RBracket"
  | .comma => "Comma"
  | .colon => "Colon"
  | .semicolon => "Semicolon"
  | .assign => "Assign"
  | .operator op => operatorName op
  | .arrow => "Arrow"
  | .fatArrow => "FatArrow"
  | .eof => "Eof"

/-- The operator a token writes. -/
def operator? : Token → Option Operator
  | .operator op => some op
  | _ => none

end Token

/-- A token and the position of its first character. -/
structure Located where
  token : Token
  position : Position
  deriving DecidableEq

/-- The words the grammar gives a meaning to. They name no variable, mapping, function or
parameter. -/
inductive Keyword where
  | contract
  | var
  | func
  | mapping
  | return_
  | if_
  | else_
  | for_
  | true_
  | false_
  deriving DecidableEq

namespace Keyword

/-- The written form. -/
def text : Keyword → String
  | .contract => "contract"
  | .var => "var"
  | .func => "func"
  | .mapping => "mapping"
  | .return_ => "return"
  | .if_ => "if"
  | .else_ => "else"
  | .for_ => "for"
  | .true_ => "true"
  | .false_ => "false"

/-- Every keyword. -/
def all : List Keyword :=
  [.contract, .var, .func, .mapping, .return_, .if_, .else_, .for_, .true_, .false_]

/-- Whether a name is taken by a keyword. -/
def isReserved (name : String) : Bool :=
  all.any fun keyword => keyword.text == name

end Keyword

namespace Token

/-- Whether a token is the given keyword. -/
def isKeyword (keyword : Keyword) : Token → Bool
  | .ident name => name == keyword.text
  | _ => false

end Token

end Covenant
