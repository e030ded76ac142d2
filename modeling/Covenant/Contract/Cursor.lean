import Covenant.Token

/-!
# Reading tokens

The reader of the grammar works on a cursor: the tokens still to come and the place of the token
consumed last. A reader either consumes tokens and gives a value or fails with a `ParseError`, which
names what it expected and what stood there.

The end of the input is sticky. A cursor without tokens, like one before `Token.eof`, shows
`Token.eof` as its next token, and consuming `Token.eof` leaves the cursor where it is.
-/

namespace Covenant

/-- What a reader wanted to see. -/
inductive Expectation where
  | token (token : Token)
  | keyword (keyword : Keyword)
  | contractName
  | declaration
  | variableName
  | typeName
  | literal
  | number
  | decimalNumber
  | keyType
  | valueType
  | mappingName
  | functionName
  | parameterName
  | parameterType
  | returnType
  | loopVariable
  | expression
  /-- A block within the nesting limit. -/
  | depth (limit : Nat)
  deriving DecidableEq

/-- The wording of an expectation. -/
def Expectation.text : Expectation → String
  | .token t => t.kind
  | .keyword k => "'" ++ k.text ++ "'"
  | .contractName => "contract name"
  | .declaration => "declaration ('var', 'mapping' or 'func')"
  | .variableName => "variable name"
  | .typeName => "type name"
  | .literal => "literal"
  | .number => "number"
  | .decimalNumber => "decimal number"
  | .keyType => "key type"
  | .valueType => "value type or 'mapping'"
  | .mappingName => "mapping name"
  | .functionName => "function name"
  | .parameterName => "parameter name"
  | .parameterType => "parameter type"
  | .returnType => "return type"
  | .loopVariable => "'var' loop variable"
  | .expression => "expression"
  | .depth limit => s!"nesting depth <= {limit}"

/-- A failed reading: what was expected, the token that stood there and its place. -/
structure ParseError where
  expected : Expectation
  found : Token
  position : Position
  deriving DecidableEq

/-- The wording of a failed reading, which begins with its place. -/
def ParseError.message (e : ParseError) : String :=
  s!"{e.position.display}: expected {e.expected.text}, found {e.found.found}"

/-- The tokens still to come, and the place of the one consumed last. -/
structure Cursor where
  rest : List Located
  last : Position := .start

/-- A reader of tokens. -/
abbrev Reader := StateT Cursor (Except ParseError)

namespace Cursor

/-- The next token; `Token.eof` once there is none. -/
def peek (c : Cursor) : Token :=
  match c.rest with
  | [] => .eof
  | item :: _ => item.token

/-- The token after the next one. -/
def peekSecond (c : Cursor) : Token :=
  match c.rest with
  | _ :: item :: _ => item.token
  | _ => .eof

/-- The cursor after the next token is consumed. -/
def advance (c : Cursor) : Cursor :=
  match c.rest with
  | [] => c
  | item :: rest =>
    if item.token = .eof then { c with last := item.position } else ⟨rest, item.position⟩

/-- The failure to find something at the next token. -/
def failure (c : Cursor) (expected : Expectation) : ParseError :=
  match c.rest with
  | [] => ⟨expected, .eof, c.last⟩
  | item :: _ => ⟨expected, item.token, item.position⟩

end Cursor

namespace Reader

/-- The next token, not consumed. -/
def peek : Reader Token := fun c => .ok (c.peek, c)

/-- The token after the next one, nothing consumed. -/
def peekSecond : Reader Token := fun c => .ok (c.peekSecond, c)

/-- An upper bound for the number of tokens still to come. -/
def remaining : Reader Nat := fun c => .ok (c.rest.length, c)

/-- Consumes one token. -/
def advance : Reader Unit := fun c => .ok ((), c.advance)

/-- Fails at the next token. -/
def fail {α : Type} (expected : Expectation) : Reader α := fun c => .error (c.failure expected)

/-- Whether the next token is the given one. -/
def sees (token : Token) : Reader Bool := fun c => .ok (c.peek == token, c)

/-- Whether the next token is the given keyword. -/
def seesKeyword (keyword : Keyword) : Reader Bool := fun c => .ok (c.peek.isKeyword keyword, c)

/-- Consumes the given token. -/
def expect (token : Token) : Reader Unit := do
  if ← sees token then advance else fail (.token token)

/-- Consumes the given keyword. -/
def expectKeyword (keyword : Keyword) : Reader Unit := do
  if ← seesKeyword keyword then advance else fail (.keyword keyword)

/-- Consumes an identifier that is not reserved. -/
def expectName (what : Expectation) : Reader String := do
  match ← peek with
  | .ident name => if Keyword.isReserved name then fail what else do advance; return name
  | _ => fail what

end Reader

end Covenant
