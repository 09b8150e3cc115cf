/-!
# Codes of problems

Every kind of problem has a code. Codes below `E0100` belong to the scanning of characters, those
below `E0200` to the nesting of delimiters, and the rest to evaluation.
-/

set_option autoImplicit false

namespace QLisp

/-- The kinds of problems that have a code. -/
inductive Code where
  | unexpectedCharacter
  | unterminatedString
  | unclosedDelimiter
  | unexpectedClosingDelimiter
  | mismatchedDelimiter
  | typeMismatch
  | wrongArity
  | unboundSymbol
  | notAFunction
  | divisionByZero
  | malformedVariadic
  | tooManyArguments
  | userError
  | loadFailed
deriving DecidableEq

namespace Code

/-- The text of a code. -/
def text : Code → String
  | unexpectedCharacter => "E0001"
  | unterminatedString => "E0002"
  | unclosedDelimiter => "E0101"
  | unexpectedClosingDelimiter => "E0102"
  | mismatchedDelimiter => "E0103"
  | typeMismatch => "E0200"
  | wrongArity => "E0201"
  | unboundSymbol => "E0202"
  | notAFunction => "E0203"
  | divisionByZero => "E0204"
  | malformedVariadic => "E0205"
  | tooManyArguments => "E0206"
  | userError => "E0207"
  | loadFailed => "E0208"

/-- General advice on how to mend a problem, for the kinds that have one. -/
def suggestion? : Code → Option String
  | unterminatedString => some "add a closing quote `\"` to terminate the string"
  | unclosedDelimiter => some "add the matching closing delimiter"
  | unexpectedClosingDelimiter => some "remove the stray delimiter"
  | mismatchedDelimiter => some "`(` closes with `)` and `\x7b` closes with `\x7d`"
  | unboundSymbol => some "define it first with `def` or check the spelling"
  | malformedVariadic => some "write the parameter list as `\x7bx & rest\x7d`"
  | _ => none

end Code

end QLisp
