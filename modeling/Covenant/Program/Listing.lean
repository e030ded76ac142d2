import Covenant.Program
import Covenant.Text.Decimal

/-!
# Program listings

The code of a program for people to read: one numbered line an instruction, with the targets of
jumps resolved and marked where they land.

A target is resolved when it was put on the stack as a constant. To find it the code is walked once
from top to bottom, following which stack entries are known constants. Compiled code keeps every
statement balanced, so the walk meets the jumps with the stack they will run on.

* `Instruction.jumpTargets` gives the target of every instruction that is a jump with a known
  target.
* `Program.listing` is the whole listing.
-/

namespace Covenant

namespace Instruction

/-- The stack position from which a jump takes its target, among the entries that are known. -/
def target? (known : List (Option Word)) : Instruction → Option Word
  | .jump => known.head?.join
  | .jumpi => known.tail.head?.join
  | _ => none

/-- What is known of the stack after an instruction: a constant is known where it is pushed, and
nothing is known of computed entries. -/
def trace (known : List (Option Word)) (i : Instruction) : List (Option Word) :=
  match i with
  | .push w => some w :: known
  | i => List.replicate i.effect.2 none ++ known.drop i.effect.1

/-- The resolved target of every instruction in turn. -/
def jumpTargetsFrom (known : List (Option Word)) : List Instruction → List (Option Nat)
  | [] => []
  | i :: rest =>
    (i.target? known).bind Word.toIndex? :: jumpTargetsFrom (i.trace known) rest

/-- For every instruction of a code list the position it jumps to, where that is known. -/
def jumpTargets (code : List Instruction) : List (Option Nat) := jumpTargetsFrom [] code

/-- A position with four digits. -/
def positionText (position : Nat) : String := Text.zeroPadded 4 position

/-- One instruction of a listing; `target` is that of a jump. -/
def listed (i : Instruction) (target : Option Nat) : String :=
  match i with
  | .push w => "PUSH        " ++ w.describe
  | .pushParam w => "PUSH_PARAM  " ++ w.describe
  | .jump | .jumpi =>
    let shown := match target with
      | some position => positionText position
      | none => "?"
    Text.leftAligned 12 i.mnemonic ++ "(→ " ++ shown ++ ")"
  | i => i.mnemonic

/-- The rule above an instruction that some jump leads to. -/
def landing : String := "      ┌" ++ String.ofList (List.replicate 34 '─') ++ "\n"

/-- The lines from a position on. `landings` are the positions that jumps lead to. -/
def listFrom (landings : List Nat) : Nat → List (Instruction × Option Nat) → List String
  | _, [] => []
  | position, (i, target) :: rest =>
    let line := if landings.contains position then
      landing ++ positionText position ++ " ► " ++ i.listed target ++ "\n"
    else positionText position ++ "   " ++ i.listed target ++ "\n"
    line :: listFrom landings (position + 1) rest

/-- The listing of a code list. A jump to its end is marked there. -/
def listing (code : List Instruction) : String :=
  let targets := jumpTargets code
  let landings := targets.filterMap id
  let lines := String.join (listFrom landings 0 (code.zip targets))
  if landings.contains code.length then lines ++ positionText code.length ++ " ► END\n" else lines

end Instruction

namespace Program

/-- A parameter key by the text it holds, if it holds one. -/
def parameterText (key : Word) : String := key.toText?.getD key.describe

/-- The rule above and below the heading of a section. -/
def ruler : String := String.ofList (List.replicate 40 '═') ++ "\n"

/-- A section of a listing: a heading and the code. -/
def sectionListing (title : String) (code : List Instruction) : String :=
  ruler ++ " " ++ title ++ "\n" ++ s!" {code.length} instructions\n" ++ ruler
    ++ Instruction.listing code ++ "\n"

/-- The listing of a program: the initialization, then the functions by rising index. -/
def listing (p : Program) : String :=
  "=== BYTECODE ===\n\n" ++ sectionListing "initialization" p.initialization
    ++ String.join (p.functions.entries.map fun (index, f) =>
      let parameters := ", ".intercalate (f.parameters.map parameterText)
      sectionListing s!"function {index} ({parameters})" f.body)

end Program

end Covenant
