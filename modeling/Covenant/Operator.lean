/-!
# Binary operators

The thirteen operators of the language, how they are written and how tightly they bind. They all
associate to the left.
-/

namespace Covenant

/-- A binary operator. -/
inductive Operator where
  | add
  | subtract
  | multiply
  | divide
  | modulo
  | equal
  | notEqual
  | less
  | greater
  | lessEqual
  | greaterEqual
  | and
  | or
  deriving DecidableEq

namespace Operator

/-- The written form. -/
def symbol : Operator → String
  | .add => "+"
  | .subtract => "-"
  | .multiply => "*"
  | .divide => "/"
  | .modulo => "%"
  | .equal => "=="
  | .notEqual => "!="
  | .less => "<"
  | .greater => ">"
  | .lessEqual => "<="
  | .greaterEqual => ">="
  | .and => "&&"
  | .or => "||"

/-- How tightly an operator binds: logic loosest, then comparison, sums, and products. -/
def precedence : Operator → Nat
  | .and | .or => 0
  | .equal | .notEqual | .less | .greater | .lessEqual | .greaterEqual => 1
  | .add | .subtract => 2
  | .multiply | .divide | .modulo => 3

end Operator

end Covenant
