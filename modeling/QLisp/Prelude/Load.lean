import QLisp.Eval.Interpreter
import QLisp.Prelude.Definitions

/-!
# Loading a prelude

A prelude is run in a scope before anything else. Either it is the one of this library or it comes
from a source of the user's. The definitions of this library compute no numbers, so they are run
without a look at scales.
-/

set_option autoImplicit false

namespace QLisp.Prelude

/-- Runs a source of the user's as a prelude. -/
def loadSource (scope : Scope) (source : String) : Interp Unit := do
  let _ ← Interpreter.runSource scope source
  return ()

/-- Runs a definition of this library. -/
def loadDefinition (scope : Scope) (source : String) : Interp Unit := do
  let _ ← Program.runSource (Eval.evaluate Interpreter.depthLimit) scope source
  return ()

/-- Runs definitions of this library one after the other. -/
def loadDefinitions (scope : Scope) : List String → Interp Unit
  | [] => pure ()
  | source :: rest => do
    loadDefinition scope source
    loadDefinitions scope rest

/-- Runs the prelude of this library. -/
def load (scope : Scope) : Interp Unit :=
  loadDefinitions scope definitions

end QLisp.Prelude
