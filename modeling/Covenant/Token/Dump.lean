import Covenant.Text.Decimal
import Covenant.Token

/-!
# Token listings

One line a token: its place, its class and either its diagnostic name or its text. Classes may be
set off by terminal colours.
-/

namespace Covenant

/-- The classes a listing sorts tokens into. -/
inductive TokenClass where
  | endOfInput
  | number
  | keyword
  | identifier
  | parenthesis
  | bracket
  | brace
  | punctuation
  | arrow
  | arithmetic
  | comparison
  | logic
  | assignment
  deriving DecidableEq

namespace TokenClass

/-- The word a listing shows. -/
def label : TokenClass → String
  | .endOfInput => "EOF"
  | .number => "NUMBER"
  | .keyword => "KEYWORD"
  | .identifier => "IDENT"
  | .parenthesis => "PAREN"
  | .bracket => "BRACKET"
  | .brace => "BRACE"
  | .punctuation => "PUNCT"
  | .arrow => "ARROW"
  | .arithmetic => "OP"
  | .comparison => "CMP"
  | .logic => "LOGIC"
  | .assignment => "ASSIGN"

/-- The terminal sequence that ends a colour. -/
def plain : String := "\x1b[0m"

/-- The terminal sequence that begins the colour of a class. -/
def color : TokenClass → String
  | .endOfInput => "\x1b[2m"
  | .number => "\x1b[36m"
  | .keyword => "\x1b[34m"
  | .identifier => "\x1b[33m"
  | .arithmetic | .comparison | .logic => "\x1b[35m"
  | _ => plain

/-- The class of an operator. -/
def ofOperator : Operator → TokenClass
  | .add | .subtract | .multiply | .divide | .modulo => .arithmetic
  | .equal | .notEqual | .less | .greater | .lessEqual | .greaterEqual => .comparison
  | .and | .or => .logic

/-- The class of a token. -/
def ofToken : Token → TokenClass
  | .ident name => if Keyword.isReserved name then .keyword else .identifier
  | .number _ => .number
  | .opens .paren | .closes .paren => .parenthesis
  | .opens .square | .closes .square => .bracket
  | .opens .brace | .closes .brace => .brace
  | .comma | .colon | .semicolon => .punctuation
  | .arrow | .fatArrow => .arrow
  | .operator op => ofOperator op
  | .assign => .assignment
  | .eof => .endOfInput

end TokenClass

/-- How a listing looks. -/
structure DumpStyle where
  /-- Whether classes are set off by colour. -/
  color : Bool := true
  /-- Whether tokens are shown by their text instead of their diagnostic name. -/
  pretty : Bool := false

namespace Token

/-- One line of a listing. -/
def dumpLine (style : DumpStyle) (item : Located) : String :=
  let tokenClass := TokenClass.ofToken item.token
  let line := Text.zeroPadded 2 item.position.line
  let column := Text.zeroPadded 2 item.position.column
  let label := Text.leftAligned 8 tokenClass.label
  let shown := if style.pretty then item.token.text else item.token.name
  let before := if style.color then tokenClass.color else ""
  let after := if style.color then TokenClass.plain else ""
  s!"[{line}:{column}] {before}{label} {shown}{after}\n"

/-- The listing of a list of tokens. -/
def dump (style : DumpStyle) (tokens : List Located) : String :=
  String.join (tokens.map (dumpLine style))

end Token

end Covenant
