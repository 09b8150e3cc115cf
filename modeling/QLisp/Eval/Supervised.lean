import QLisp.Eval.Basic

/-!
# Evaluation under a supervisor

While a value is evaluated, other values are evaluated and functions are applied, each in some
scope and with some machine. A supervisor says which of these events are permitted. Evaluation under
a supervisor does what evaluation does, except that an event that is not permitted has no answer. A
supervisor may also look at the events alone and not at the machines.
-/

set_option autoImplicit false

namespace QLisp

/-- What happens during an evaluation: a value is evaluated, or a function is applied to evaluated
arguments. -/
inductive Event where
  | evaluation (scope : Scope) (v : Value)
  | application (scope : Scope) (function : Value) (args : List Value)

namespace Event

/-- The scope in which something happens. -/
def scope : Event → Scope
  | evaluation scope _ => scope
  | application scope _ _ => scope

/-- Whether `def` is applied. -/
def isDefinition : Event → Bool
  | application _ (.builtin .define) _ => true
  | _ => false

end Event

/-- Says what may happen with which machine. -/
abbrev Supervisor : Type :=
  Event → Machine → Bool

namespace Interp

variable {α : Type}

/-- A computation that has no answer unless the machine it starts with is permitted. -/
def guarded (permission : Machine → Bool) (x : Interp α) : Interp α :=
  fun host m => if permission m then x host m else none

/-- A computation that has no answer unless it is permitted. -/
def permitted (permission : Bool) (x : Interp α) : Interp α :=
  guarded (fun _ => permission) x

end Interp

namespace Eval

section

variable (permits : Supervisor)

/-- Applies a function under a supervisor who sees the machine. -/
def applyWatched (evaluate : Evaluator) (scope : Scope) (args : List Value) (function : Value) :
    Interp Value :=
  Interp.guarded (permits (.application scope function args))
    (applyWith evaluate scope args function)

/-- One step of evaluation under a supervisor who sees the machine. -/
def stepWatched (evaluate : Evaluator) : Evaluator :=
  step (applyWatched permits evaluate) evaluate

/-- Evaluates a value in a scope, at most `depth` steps deep and under a supervisor who sees the
machine. -/
def watched (depth : Nat) (scope : Scope) (v : Value) : Interp Value :=
  match depth with
  | 0 => Interp.tooDeep
  | depth + 1 =>
    Interp.guarded (permits (.evaluation scope v))
      (stepWatched permits (watched depth) scope v)

end

section

variable (permits : Event → Bool)

/-- Applies a function under a supervisor. -/
def applySupervised : Evaluator → Applier :=
  applyWatched fun e _ => permits e

/-- One step of evaluation under a supervisor. -/
def stepSupervised : Evaluator → Evaluator :=
  stepWatched fun e _ => permits e

/-- Evaluates a value in a scope under a supervisor, at most `depth` steps deep. -/
def supervised : Nat → Evaluator :=
  watched fun e _ => permits e

end

end Eval

end QLisp
