import Covenant.Word.Encoding

/-!
# Argument values

What a caller hands to a function: an integer, a truth value or a short text. Each becomes one word
before it reaches the machine.
-/

namespace Covenant

/-- A value given as a call argument. -/
inductive Value where
  | int (n : Int)
  | bool (b : Bool)
  | text (s : String)
  deriving DecidableEq

namespace Value

/-- The word a value is passed as. -/
def encode : Value → Except EncodingError Word
  | .int n => Word.ofInt n
  | .bool b => .ok (Word.ofBool b)
  | .text s => Word.ofText s

/-- Reads a command-line argument: `true` and `false`, then integers, and any other text as
itself. -/
def ofArgument (argument : String) : Value :=
  if argument == "true" then .bool true
  else if argument == "false" then .bool false
  else match Text.readInt? argument with
    | some n => .int n
    | none => .text argument

/-- The written form of a value; texts stand in quotes. -/
def display : Value → String
  | .int n => toString n
  | .bool b => toString b
  | .text s => "\"" ++ s ++ "\""

end Value

end Covenant
