import Covenant.Program.Decode
import Covenant.Store

/-!
# Faults

Everything that can keep a deployment or a call from its result. What a run stored before a fault
stays stored.
-/

namespace Covenant

/-- Why a deployment or a call has no result. -/
inductive Fault where
  /-- An instruction needs more words than the stack holds. -/
  | stackUnderflow (op : String) (pc : Nat)
  | stackOverflow (limit : Nat)
  | undefinedParameter (key : Word)
  | missingStorageKey (key : String)
  | missingMemorySlot (key : Word)
  | divisionByZero (pc : Nat)
  | undefinedFunction (index : Nat)
  | tooManyArguments (index expected got : Nat)
  | jumpOutOfBounds (target : Word) (length : Nat)
  /-- There is no program to run. -/
  | notLoaded
  | stepLimitExceeded (limit : Nat)
  | encoding (cause : EncodingError)
  | store (cause : StoreError)
  | program (cause : ProgramError)
  deriving DecidableEq

/-- The wording of a fault. -/
def Fault.message : Fault → String
  | .stackUnderflow op pc => s!"stack underflow: {op} at pc {pc} needs more operands"
  | .stackOverflow limit => s!"stack overflow: more than {limit} words"
  | .undefinedParameter key => s!"undefined parameter {key.describe}"
  | .missingStorageKey key => s!"storage key {key} not found"
  | .missingMemorySlot key => s!"memory slot {key.describe} is empty"
  | .divisionByZero pc => s!"division by zero at pc {pc}"
  | .undefinedFunction index => s!"function {index} is not defined"
  | .tooManyArguments index expected got =>
    s!"function {index} takes {expected} argument(s), got {got}"
  | .jumpOutOfBounds target length => s!"jump target {target.describe} is outside 0..={length}"
  | .notLoaded => "no bytecode loaded"
  | .stepLimitExceeded limit => s!"step limit of {limit} exceeded"
  | .encoding cause => cause.message
  | .store cause => cause.message
  | .program cause => cause.message

end Covenant
