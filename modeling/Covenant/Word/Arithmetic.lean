import Covenant.Operator
import Covenant.Word

/-!
# Arithmetic on words

Operators read their operands as signed integers and the result is taken modulo 2^256. Division
rounds up; the remainder has the sign of the left operand. Comparisons and logic give one or zero.
-/

namespace Covenant

/-- The least integer that is not below a quotient. -/
def ceilDiv (a b : Int) : Int := -((-a).fdiv b)

/-- The value of an operator on two words, the left operand first; `none` is a division by zero. -/
def Operator.apply (op : Operator) (l r : Word) : Option Word :=
  match op with
  | .add => some (.wrap (l.toInt + r.toInt))
  | .subtract => some (.wrap (l.toInt - r.toInt))
  | .multiply => some (.wrap (l.toInt * r.toInt))
  | .divide => if r.isTrue then some (.wrap (ceilDiv l.toInt r.toInt)) else none
  | .modulo => if r.isTrue then some (.wrap (l.toInt.tmod r.toInt)) else none
  | .equal => some (.ofBool (l.toInt == r.toInt))
  | .notEqual => some (.ofBool (l.toInt != r.toInt))
  | .less => some (.ofBool (l.toInt < r.toInt))
  | .greater => some (.ofBool (r.toInt < l.toInt))
  | .lessEqual => some (.ofBool (l.toInt ≤ r.toInt))
  | .greaterEqual => some (.ofBool (r.toInt ≤ l.toInt))
  | .and => some (.ofBool (l.isTrue && r.isTrue))
  | .or => some (.ofBool (l.isTrue || r.isTrue))

end Covenant
