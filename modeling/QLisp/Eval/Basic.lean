import QLisp.Eval.Deed
import QLisp.Eval.Invoke

/-!
# Evaluation

A symbol has the value it is bound to. An S-expression evaluates all its items from left to right;
the empty one is the unit value, a single item is its own answer, and otherwise the first item is
applied to the others. Every other value is its own answer.

One step of evaluation takes the evaluation of everything inside and the application of functions as
parameters, and `evaluate` iterates the step up to a depth. A run that ends within some depth has
the same answer within every greater one.
-/

set_option autoImplicit false

namespace QLisp

/-- How to apply a function to evaluated arguments in a scope. -/
abbrev Applier : Type :=
  Scope → List Value → Value → Interp Value

namespace Eval

/-- Applies a builtin to evaluated arguments in the calling scope. -/
def applyBuiltin (evaluate : Evaluator) (scope : Scope) (args : List Value) (b : Builtin) :
    Interp Value :=
  b.deed.perform evaluate scope args

/-- Applies a function to evaluated arguments in the calling scope. -/
def applyWith (evaluate : Evaluator) (scope : Scope) (args : List Value) : Value → Interp Value
  | .builtin b => applyBuiltin evaluate scope args b
  | .lambda params body captured => Invoke.invoke evaluate params body captured args scope
  | v => Interp.fail (.notAFunction v.render)

/-- Evaluates items from left to right. -/
def evaluateItems (evaluate : Evaluator) (scope : Scope) : List Value → Interp (List Value)
  | [] => pure []
  | item :: items => do
    let value ← evaluate scope item
    let values ← evaluateItems evaluate scope items
    return value :: values

/-- Evaluates a call: the value of the first item is applied to the values of the others. -/
def evaluateCall (apply : Applier) (evaluate : Evaluator) (scope : Scope) (items : List Value) :
    Interp Value := do
  match ← evaluateItems evaluate scope items with
  | [] => return .unit
  | [value] => return value
  | function :: args => apply scope args function

/-- The value of a symbol. -/
def lookup (scope : Scope) (name : String) : Interp Value := do
  match ← Interp.inspectStore (·.get? scope name) with
  | some value => return value
  | none => Interp.fail (.unboundSymbol name)

/-- One step of evaluation. -/
def step (apply : Applier) (evaluate : Evaluator) (scope : Scope) : Value → Interp Value
  | .symbol name => lookup scope name
  | .sexpr items => evaluateCall apply evaluate scope items
  | v => pure v

/-- Evaluates a value in a scope, at most `depth` steps deep. -/
def evaluate (depth : Nat) (scope : Scope) (v : Value) : Interp Value :=
  match depth with
  | 0 => Interp.tooDeep
  | depth + 1 => step (applyWith (evaluate depth)) (evaluate depth) scope v

end Eval

end QLisp
