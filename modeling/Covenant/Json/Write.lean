import Covenant.Json

/-!
# Writing JSON

Two layouts: everything on one line without blanks (`Json.render`), or one item a line with two
spaces for each level (`Json.renderPretty`). Empty arrays and objects stay closed in both.
-/

namespace Covenant

namespace Json

/-- A string as written, between quotes. -/
def renderRaw (raw : List Char) : List Char := '"' :: raw ++ ['"']

/-- The written form of `true` and `false`. -/
def renderBool : Bool → List Char
  | true => "true".toList
  | false => "false".toList

mutual

/-- The one-line form. -/
def renderChars : Json → List Char
  | .null => "null".toList
  | .bool b => renderBool b
  | .number literal => literal
  | .string raw => renderRaw raw
  | .array items => '[' :: renderItems items ++ [']']
  | .object members => '{' :: renderMembers members ++ ['}']

/-- The one-line form of items, with commas between them. -/
def renderItems : List Json → List Char
  | [] => []
  | [item] => item.renderChars
  | item :: rest => item.renderChars ++ ',' :: renderItems rest

/-- The one-line form of members, with commas between them. -/
def renderMembers : List (List Char × Json) → List Char
  | [] => []
  | [(name, value)] => renderRaw name ++ ':' :: value.renderChars
  | (name, value) :: rest => renderRaw name ++ ':' :: value.renderChars ++ ',' :: renderMembers rest

end

/-- A line break and the indentation of a level. -/
def lineBreak (level : Nat) : List Char := '\n' :: List.replicate (2 * level) ' '

mutual

/-- The form with one item a line, from a line of the given level on. -/
def prettyChars (level : Nat) : Json → List Char
  | .null => "null".toList
  | .bool b => renderBool b
  | .number literal => literal
  | .string raw => renderRaw raw
  | .array [] => ['[', ']']
  | .array (item :: rest) =>
    '[' :: lineBreak (level + 1) ++ prettyChars (level + 1) item
      ++ prettyItems (level + 1) rest ++ lineBreak level ++ [']']
  | .object [] => ['{', '}']
  | .object ((name, value) :: rest) =>
    '{' :: lineBreak (level + 1) ++ renderRaw name ++ ':' :: ' ' :: prettyChars (level + 1) value
      ++ prettyMembers (level + 1) rest ++ lineBreak level ++ ['}']

/-- Further items of an array, each after a comma and a line break. -/
def prettyItems (level : Nat) : List Json → List Char
  | [] => []
  | item :: rest => ',' :: lineBreak level ++ prettyChars level item ++ prettyItems level rest

/-- Further members of an object, each after a comma and a line break. -/
def prettyMembers (level : Nat) : List (List Char × Json) → List Char
  | [] => []
  | (name, value) :: rest =>
    ',' :: lineBreak level ++ renderRaw name ++ ':' :: ' ' :: prettyChars level value
      ++ prettyMembers level rest

end

/-- A value on one line. -/
def render (value : Json) : String := String.ofList value.renderChars

/-- A value with one item a line. -/
def renderPretty (value : Json) : String := String.ofList (value.prettyChars 0)

end Json

end Covenant
