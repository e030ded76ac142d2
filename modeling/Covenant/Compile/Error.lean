import Covenant.Contract.Cursor
import Covenant.Token.Scan
import Covenant.Word.Encoding

/-!
# Compilation errors

Everything that can go wrong between the text of a contract and its program.
-/

namespace Covenant

/-- Why a source or a contract has no program. -/
inductive CompileError where
  | lex (cause : LexError)
  | parse (cause : ParseError)
  | encoding (cause : EncodingError)
  /-- Two declarations of a contract share a name. -/
  | duplicateDeclaration (name : String)
  /-- Two parameters of a function share a name. -/
  | duplicateParameter (function name : String)
  /-- A parameter has the name of a storage variable or a mapping, which would hide it. -/
  | shadowedParameter (function name : String)
  /-- The left side of an assignment is neither a name nor an entry of a mapping. -/
  | invalidTarget (target : String)
  /-- Keys are given to a name that is no mapping. -/
  | unknownMapping (name : String)
  /-- A mapping is used with a number of keys that is not its own. -/
  | mappingArity (name : String) (expected found : Nat)
  /-- The operands and operators of an expression do not alternate. -/
  | malformedExpression (terms operators : Nat)
  deriving DecidableEq

/-- The wording of a compilation error. -/
def CompileError.message : CompileError → String
  | .lex cause => "lex error: " ++ cause.message
  | .parse cause => "parse error: " ++ cause.message
  | .encoding cause => "encoding error: " ++ cause.message
  | .duplicateDeclaration name => s!"'{name}' is declared more than once"
  | .duplicateParameter function name =>
    s!"function '{function}' declares parameter '{name}' more than once"
  | .shadowedParameter function name =>
    s!"parameter '{name}' of function '{function}' is hidden by the contract-level '{name}'"
  | .invalidTarget target => s!"cannot assign to {target}"
  | .unknownMapping name => s!"'{name}' is not a mapping"
  | .mappingArity name expected found =>
    s!"mapping '{name}' takes {expected} key(s), got {found}"
  | .malformedExpression terms operators =>
    s!"internal compiler error: expression with {terms} term(s) and {operators} operator(s)"

end Covenant
