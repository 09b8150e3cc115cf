import QLisp.Eval.Machine

/-!
# Calling lambdas

A call binds the arguments to the parameters from left to right, on top of the bindings that the
lambda already holds. The parameter `&` takes all arguments that are left as one list and has to be
followed by exactly one name for it. If every parameter is bound, the body is evaluated in a scope
inside of the caller's, so names that the lambda does not bind have the meaning they have for the
caller. If parameters are left, the answer is a new lambda that holds the bindings made so far.
-/

set_option autoImplicit false

namespace QLisp

namespace Invoke

/-- The parameter that takes all arguments that are left. -/
def restMarker : String :=
  "&"

/-- Why arguments cannot be bound. -/
inductive Fault where
  | tooMany
  | malformedRest
deriving DecidableEq

/-- Binds arguments to parameters in a table. The answer is the table and the parameters left. -/
def bindArguments (table : Table Value) :
    List String → List Value → Except Fault (Table Value × List String)
  | params, [] => .ok (table, params)
  | [], _ :: _ => .error .tooMany
  | param :: params, arg :: args =>
    if param = restMarker then
      match params with
      | [name] => .ok (table.insert name (.qexpr (arg :: args)), [])
      | _ => .error .malformedRest
    else bindArguments (table.insert param arg) params args

/-- Binding arguments puts nothing into a table but the arguments and a list of them. -/
theorem all_bindArguments {P : Value → Prop}
    (hlist : ∀ vs : List Value, (∀ v ∈ vs, P v) → P (.qexpr vs)) {table bound : Table Value}
    {params left : List String} {args : List Value} (htable : table.All P) (hargs : ∀ v ∈ args, P v)
    (hbound : bindArguments table params args = .ok (bound, left)) : bound.All P := by
  fun_induction bindArguments table params args with
  | case1 table params =>
    cases hbound
    exact htable
  | case2 table arg args => cases hbound
  | case3 table arg args name =>
    cases hbound
    exact htable.insert (hlist _ hargs) name
  | case4 table params arg args _ => cases hbound
  | case5 table param params arg args _ ih =>
    rw [List.forall_mem_cons] at hargs
    exact ih (htable.insert hargs.1 param) hargs.2 hbound

/-- Calls a lambda from the scope `caller`. -/
def invoke (evaluate : Evaluator) (params : List String) (body : List Value) (captured : Scope)
    (args : List Value) (caller : Scope) : Interp Value := do
  let held ← Interp.inspectStore (·.tableAt captured.table)
  match bindArguments held params args with
  | .error .tooMany => Interp.fail (.tooManyArguments args.length params.length)
  | .error .malformedRest => Interp.fail .malformedVariadic
  | .ok (table, []) =>
    let scope ← Interp.newScope (·.within table caller)
    evaluate scope (.sexpr body)
  | .ok (table, left) =>
    let scope ← Interp.newScope (·.alone table)
    return .lambda left body scope

end Invoke

end QLisp
