import Covenant.Text.Quoted

/-!
# Outlines

A tree of named parts and how it is shown: on one line, or spread out with one part a line, four
spaces for each level and a comma after every part.
-/

namespace Covenant

/-- A tree to be shown. -/
inductive Outline where
  /-- A leaf, shown as its text. -/
  | leaf (text : String)
  /-- A name with positional parts: `Name(a, b)`. -/
  | tuple (name : String) (parts : List Outline)
  /-- A name with labelled parts: `Name` and `label: part` pairs between braces. -/
  | record (name : String) (fields : List (String × Outline))
  /-- A list: `[a, b]`. -/
  | list (items : List Outline)

namespace Outline

/-- Texts separated by a comma and a space. -/
def commas (texts : List String) : String := ", ".intercalate texts

mutual

/-- The one-line form. -/
def line : Outline → String
  | .leaf text => text
  | .tuple name parts => name ++ "(" ++ commas (lines parts) ++ ")"
  | .record name fields => name ++ " " ++ Text.braced (commas (fieldLines fields))
  | .list items => "[" ++ commas (lines items) ++ "]"

/-- The one-line forms of several outlines. -/
def lines : List Outline → List String
  | [] => []
  | part :: rest => part.line :: lines rest

/-- The one-line forms of labelled parts. -/
def fieldLines : List (String × Outline) → List String
  | [] => []
  | (label, part) :: rest => (label ++ ": " ++ part.line) :: fieldLines rest

end

/-- A line break and the indentation of a level. -/
def break_ (level : Nat) : String :=
  "\n" ++ String.ofList (List.replicate (4 * level) ' ')

/-- Parts that are already shown, each on a line of its own at `level`, between two brackets. -/
def enclose (opening closing : String) (level : Nat) (parts : List String) : String :=
  match parts with
  | [] => opening ++ closing
  | parts =>
    opening ++ String.join (parts.map fun part => break_ (level + 1) ++ part ++ ",")
      ++ break_ level ++ closing

mutual

/-- The spread-out form; `level` is that of the line it begins on. -/
def spread (level : Nat) : Outline → String
  | .leaf text => text
  | .tuple name parts => name ++ enclose "(" ")" level (spreads (level + 1) parts)
  | .record name fields =>
    name ++ enclose (String.ofList [' ', '{']) (String.singleton '}') level
      (fieldSpreads (level + 1) fields)
  | .list items => enclose "[" "]" level (spreads (level + 1) items)

/-- The spread-out forms of several outlines. -/
def spreads (level : Nat) : List Outline → List String
  | [] => []
  | part :: rest => part.spread level :: spreads level rest

/-- The spread-out forms of labelled parts. -/
def fieldSpreads (level : Nat) : List (String × Outline) → List String
  | [] => []
  | (label, part) :: rest => (label ++ ": " ++ part.spread level) :: fieldSpreads level rest

end

end Outline

end Covenant
