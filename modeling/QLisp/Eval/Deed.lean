import QLisp.Eval.Primitive
import QLisp.Eval.Program

/-!
# What builtins do

A builtin looks at its arguments and then does one thing: it answers, it evaluates a list as code,
it binds names, it makes a lambda, it prints a line or it loads a script. `Builtin.deed` says for
each builtin what it does and how it reads its arguments, and `Deed.perform` carries it out. A
lambda that is made captures a new scope inside of the calling one.
-/

set_option autoImplicit false

namespace QLisp

/-- What is done with evaluated arguments. -/
inductive Deed where
  /-- Answers without effects. -/
  | answer (value : List Value → Primitive.Outcome Value)
  /-- Evaluates a list as code. -/
  | evaluate (code : List Value → Primitive.Outcome (List Value))
  /-- Binds names to values in the calling scope or in its root. -/
  | bind (inRoot : Bool) (bindings : List Value → Primitive.Outcome (List (String × Value)))
  /-- Makes a lambda of parameters and a body. -/
  | capture (parts : List Value → Primitive.Outcome (List String × List Value))
  /-- Prints a line. -/
  | print (line : List Value → String)
  /-- Runs the script at a path. -/
  | load (path : List Value → Primitive.Outcome String)

/-- What a builtin does. -/
def Builtin.deed : Builtin → Deed
  | .add => .answer Primitive.add
  | .subtract => .answer Primitive.subtract
  | .multiply => .answer Primitive.multiply
  | .divide => .answer Primitive.divide
  | .head => .answer Primitive.head
  | .tail => .answer Primitive.tail
  | .list => .answer fun args => .ok (.qexpr args)
  | .evaluate => .evaluate (Primitive.expectOneList .evaluate)
  | .join => .answer Primitive.join
  | .define => .bind true (Primitive.bindings .define)
  | .assign => .bind false (Primitive.bindings .assign)
  | .lambda => .capture Primitive.lambdaParts
  | .greater => .answer (Primitive.compare .greater fun a b => b.less a)
  | .greaterEq => .answer (Primitive.compare .greaterEq fun a b => b.lessEq a)
  | .less => .answer (Primitive.compare .less Decimal.less)
  | .lessEq => .answer (Primitive.compare .lessEq Decimal.lessEq)
  | .equal => .answer Primitive.equal
  | .unequal => .answer Primitive.unequal
  | .branch => .evaluate Primitive.selectBranch
  | .raise => .answer Primitive.raise
  | .print => .print Primitive.printedLine
  | .load => .load Primitive.loadPath

/-- The scope whose table gets bindings that are made in a scope or in its root. -/
def Scope.target (scope : Scope) (inRoot : Bool) : Scope :=
  if inRoot then scope.root else scope

/-- Carries out a deed in the calling scope. -/
def Deed.perform (evaluate : Evaluator) (scope : Scope) (args : List Value) : Deed → Interp Value
  | .answer value => Interp.ofExcept (value args)
  | .evaluate code => do
    let items ← Interp.ofExcept (code args)
    evaluate scope (.sexpr items)
  | .bind inRoot bindings => do
    let bound ← Interp.ofExcept (bindings args)
    Interp.changeStore (·.defineAll (scope.target inRoot) bound)
    return .unit
  | .capture parts => do
    let (params, body) ← Interp.ofExcept (parts args)
    let captured ← Interp.newScope (·.child scope)
    return .lambda params body captured
  | .print line => do
    Interp.printLine (line args)
    return .unit
  | .load path => do
    let path ← Interp.ofExcept (path args)
    let source ← Interp.readScript path
    let _ ← Program.runSource evaluate scope source
    return .unit

end QLisp
