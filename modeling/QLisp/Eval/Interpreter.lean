import QLisp.Eval.Range

/-!
# The interpreter

The operations of the interpreter, within the range of scales and without the bound on depth: it is
set so high that no run of a real machine reaches it. So an operation without an answer is one that
breaks off because a scale cannot be kept.
-/

set_option autoImplicit false

namespace QLisp

namespace Interpreter

/-- How deep an evaluation may go, the 62nd power of two. -/
def depthLimit : Nat :=
  4611686018427387904

/-- Evaluates a value in a scope. -/
def evaluate (scope : Scope) (v : Value) : Interp Value :=
  Eval.bounded depthLimit scope v

/-- Applies a function value to evaluated arguments. -/
def apply (scope : Scope) (function : Value) (args : List Value) : Interp Value :=
  Eval.applyBounded (Eval.bounded depthLimit) scope args function

/-- Reads a source and evaluates all of it as one S-expression. -/
def evaluateSource (scope : Scope) (source : String) : Interp Value := do
  let program ← Interp.ofExcept (Program.read source)
  evaluate scope program

/-- Evaluates several sources in order, each as one S-expression. -/
def evaluateSources (scope : Scope) : List String → Interp (List Value)
  | [] => pure []
  | source :: rest => do
    let v ← evaluateSource scope source
    let vs ← evaluateSources scope rest
    return v :: vs

/-- Runs the top-level forms of a program one after the other. -/
def run (scope : Scope) (program : Value) : Interp Value :=
  Program.run (Eval.bounded depthLimit) scope program

/-- Reads a source and runs its top-level forms one after the other. -/
def runSource (scope : Scope) (source : String) : Interp Value :=
  Program.runSource (Eval.bounded depthLimit) scope source

/-- Reads a source and runs its first top-level form as a program. -/
def runFirstForm (scope : Scope) (source : String) : Interp Value := do
  match ← Interp.ofExcept (Program.read source) with
  | .sexpr (form :: _) => run scope form
  | v => return v

/-- Evaluates the source of a function, then those of its arguments, and applies the function. -/
def applySources (scope : Scope) (function : String) (args : List String) : Interp Value := do
  let f ← evaluateSource scope function
  let values ← evaluateSources scope args
  apply scope f values

/-- Evaluates a source and binds its value to a name in the scope. -/
def defineSource (scope : Scope) (name source : String) : Interp Unit := do
  let v ← evaluateSource scope source
  Interp.changeStore (·.define scope name v)

/-- Evaluates a source and binds its value to a name in the outermost scope. -/
def defineGlobalSource (scope : Scope) (name source : String) : Interp Unit := do
  let v ← evaluateSource scope source
  Interp.changeStore (·.defineGlobal scope name v)

end Interpreter

namespace Machine

/-- A machine whose only scope is a root that binds all builtins, and that scope. -/
def withBuiltins : Machine × Scope :=
  let (store, root) := Store.empty.newRoot
  let store := store.defineAll root (Builtin.all.map fun b => (b.name, .builtin b))
  (⟨store, #[], #[], .nothing⟩, root)

end Machine

end QLisp
