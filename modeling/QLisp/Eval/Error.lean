import QLisp.Diagnostic.Basic
import QLisp.Value.Basic

/-!
# Evaluation errors

An evaluation error is a cause; its wording is given by `EvalError.message` and its code by
`EvalError.code`. Causes that concern a value keep the kind and the text of that value. An error
from a top-level form of a program is wrapped together with the text of the form, once for every
program that is being run.
-/

set_option autoImplicit false

namespace QLisp

/-- A value that an error speaks about: its kind and its text. -/
structure Shown where
  kind : ValueKind
  text : String
deriving DecidableEq

/-- What an error says about a value. -/
def Value.shown (v : Value) : Shown :=
  ⟨v.kind, v.render⟩

/-- Arguments of a wrong kind. -/
inductive TypeFault where
  | notNumber (function : Builtin) (got : Shown)
  | notList (function : Builtin) (got : Shown)
  | notText (function : Builtin) (got : Shown)
  | notOneList (function : Builtin) (count : Nat)
  | conditionNotNumber (got : Shown)
  | nameNotSymbol (function : Builtin) (text : String)
  | parameterNotSymbol (text : String)
deriving DecidableEq

/-- A wrong number of arguments. -/
inductive ArityFault where
  | exactly (function : Builtin) (wanted got : Nat)
  | noArguments (function : Builtin)
  | noNames (function : Builtin)
  | namesAndValues (function : Builtin) (names values : Nat)
deriving DecidableEq

/-- Why an evaluation fails. -/
inductive EvalError where
  | unreadable (message : String) (position : Nat) (problem : Code)
  | type (fault : TypeFault)
  | arity (fault : ArityFault)
  | unboundSymbol (name : String)
  | notAFunction (text : String)
  | divisionByZero
  | malformedVariadic
  | tooManyArguments (got expected : Nat)
  | user (message : String)
  | inExpression (expression : String) (cause : EvalError)
  | loadFailed (path reason : String)
deriving DecidableEq

/-- A text in backquotes. -/
def quoted (text : String) : String :=
  "`" ++ text ++ "`"

/-- The name of a function in backquotes. -/
def Builtin.quotedName (b : Builtin) : String :=
  quoted b.name

/-- A count with its noun, which takes an `s` unless the count is one. -/
def counted (n : Nat) (noun : String) : String :=
  n.repr ++ " " ++ noun ++ (if n = 1 then "" else "s")

/-- A value as errors speak about it: its kind, then its text in backquotes. -/
def Shown.describe (s : Shown) : String :=
  s.kind.name ++ " " ++ quoted s.text

/-- The wording of a wrong kind. -/
def TypeFault.message : TypeFault → String
  | notNumber f got =>
    "arguments to " ++ f.quotedName ++ " can only be numbers, but got " ++ got.describe
  | notList f got => f.quotedName ++ " expects a Q-Expression, but got " ++ got.describe
  | notText f got => f.quotedName ++ " expects a Text, but got " ++ got.describe
  | notOneList f count =>
    f.quotedName ++ " expects exactly one Q-Expression, but was given " ++ count.repr
      ++ " arguments"
  | conditionNotNumber got =>
    "first argument to " ++ Builtin.branch.quotedName ++ " has to be a Number, but got "
      ++ got.describe
  | nameNotSymbol f text => f.quotedName ++ " cannot define non-symbol " ++ quoted text
  | parameterNotSymbol text =>
    "parameters to " ++ Builtin.lambda.quotedName ++ " must be symbols, but got " ++ quoted text

/-- The wording of a wrong number. -/
def ArityFault.message : ArityFault → String
  | exactly f wanted got =>
    f.quotedName ++ " takes exactly " ++ counted wanted "argument" ++ " but was given " ++ got.repr
  | noArguments f => f.quotedName ++ " needs at least one argument"
  | noNames f => f.quotedName ++ " needs a list of names"
  | namesAndValues f names values =>
    f.quotedName ++ " got " ++ counted names "name" ++ " but " ++ counted values "value"

namespace EvalError

/-- The wording of an error. -/
def message : EvalError → String
  | unreadable message position _ => message ++ " at offset " ++ position.repr
  | type fault => "type error: " ++ fault.message
  | arity fault => "arity error: " ++ fault.message
  | unboundSymbol name => "unbound symbol '" ++ name ++ "'"
  | notAFunction text => "'" ++ text ++ "' is not a function"
  | divisionByZero => "division by zero"
  | malformedVariadic => "malformed parameter list: symbol '&' not followed by a single symbol"
  | tooManyArguments got expected =>
    "function got too many arguments: got " ++ got.repr ++ ", expected " ++ expected.repr
  | user message => message
  | inExpression expression cause =>
    "error in expression '" ++ expression ++ "': " ++ cause.message
  | loadFailed path reason => "cannot read '" ++ path ++ "': " ++ reason

/-- The code of an error; a wrapped error has the code of what it wraps. -/
def code : EvalError → Code
  | unreadable _ _ problem => problem
  | type _ => .typeMismatch
  | arity _ => .wrongArity
  | unboundSymbol _ => .unboundSymbol
  | notAFunction _ => .notAFunction
  | divisionByZero => .divisionByZero
  | malformedVariadic => .malformedVariadic
  | tooManyArguments _ _ => .tooManyArguments
  | user _ => .userError
  | inExpression _ cause => cause.code
  | loadFailed _ _ => .loadFailed

/-- The error inside of all wrappers. -/
def innermost : EvalError → EvalError
  | inExpression _ cause => cause.innermost
  | e => e

/-- The texts of the top-level forms around an error, the outermost first. -/
def inside : EvalError → List String
  | inExpression expression cause => expression :: cause.inside
  | _ => []

/-- The error that reports a diagnostic. -/
def ofDiagnostic (d : Diagnostic) : EvalError :=
  unreadable d.message d.position (d.code.getD .unexpectedCharacter)

/-- The code of an error is that of the error inside of all wrappers. -/
theorem code_innermost (e : EvalError) : e.innermost.code = e.code := by
  induction e with
  | inExpression _ cause ih => simpa [innermost, code] using ih
  | _ => rfl

end EvalError

end QLisp
