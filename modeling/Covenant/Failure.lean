import Covenant.Compile.Error
import Covenant.Machine.Fault

/-!
# Failures

The three ways in which work on a contract can fail, with the wording and the short code that people
and programs see.
-/

namespace Covenant

/-- Any failure of compiling, running or keeping a contract. -/
inductive Failure where
  | compile (cause : CompileError)
  | execution (cause : Fault)
  | store (cause : StoreError)
  deriving DecidableEq

namespace Failure

/-- The wording of a failure. -/
def message : Failure → String
  | .compile cause => cause.message
  | .execution cause => "execution fault: " ++ cause.message
  | .store cause => cause.message

/-- The code of a failure. -/
def code : Failure → String
  | .compile (.lex _) => "lex_error"
  | .compile (.parse _) => "parse_error"
  | .compile (.encoding _) => "encoding_error"
  | .compile _ => "compile_error"
  | .execution (.store _) => "storage_error"
  | .execution (.encoding _) => "encoding_error"
  | .execution _ => "execution_fault"
  | .store _ => "storage_error"

end Failure

end Covenant
