import QLisp.Eval.Machine
import QLisp.Form.Reader

/-!
# Programs

A program is the S-expression of the top-level forms of a source. Running it evaluates the forms one
after the other in the same scope; the first one that fails ends the run, and its error is wrapped
with the text of that form. The evaluation of single forms is a parameter here.
-/

set_option autoImplicit false

namespace QLisp

namespace Program

/-- A source as one S-expression of its top-level forms, or the first problem in its text. -/
def parse (source : String) : Except Diagnostic Value :=
  let (file, diagnostics) := SourceFile.ofSource source
  match diagnostics with
  | [] => .ok file.toValue
  | first :: _ => .error first

/-- Reads a source as one S-expression; the first problem in its text is the error. -/
def read (source : String) : Except EvalError Value :=
  (parse source).mapError EvalError.ofDiagnostic

/-- Evaluates forms in order; the answer is that of the last form, or `last` if there is none. -/
def runForms (evaluate : Evaluator) (scope : Scope) (last : Value) : List Value → Interp Value
  | [] => pure last
  | form :: rest => do
    let result ← (evaluate scope form).mapError (.inExpression form.render)
    runForms evaluate scope result rest

/-- Runs a program. A value that is no S-expression is evaluated as it is. -/
def run (evaluate : Evaluator) (scope : Scope) : Value → Interp Value
  | .sexpr forms => runForms evaluate scope .unit forms
  | v => evaluate scope v

/-- Reads a source and runs it; nothing runs unless all of it can be read. -/
def runSource (evaluate : Evaluator) (scope : Scope) (source : String) : Interp Value := do
  let program ← Interp.ofExcept (read source)
  run evaluate scope program

end Program

end QLisp
