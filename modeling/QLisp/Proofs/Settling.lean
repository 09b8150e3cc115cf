import QLisp.Proofs.Captured
import QLisp.Proofs.Evolution

/-!
# Evaluations that settle

A computation with a bound on its depth settles if from some depth on it has one and the same
answer. Computations that settle can be put one after the other (`Settles.bind`), and there is one
rule for each way in which a value is evaluated, which says how much deeper it goes.

The rules are for an evaluation that is confined to some values: where any other value would have
to be evaluated it has no answer. So what settles under confinement settles without it
(`settles_evaluate`), and nothing but the allowed values is evaluated on the way.
-/

set_option autoImplicit false

namespace QLisp

namespace Interp

variable {α β : Type}

/-- From the depth `n` on, the computation has this outcome and leaves this machine. -/
def Settles (n : Nat) (x : Nat → Interp α) (host : Host) (m : Machine)
    (outcome : Except EvalError α) (m' : Machine) : Prop :=
  ∀ depth, n ≤ depth → x depth host m = some (outcome, m')

namespace Settles

variable {n k : Nat} {x : Nat → Interp α} {host : Host} {m m' m'' : Machine}
  {outcome : Except EvalError α}

/-- What is answered at every depth settles. -/
theorem of_forall (h : ∀ depth, x depth host m = some (outcome, m')) :
    Settles n x host m outcome m' :=
  fun depth _ => h depth

/-- What settles at a depth settles at the greater ones. -/
theorem mono (h : Settles n x host m outcome m') (hle : n ≤ k) : Settles k x host m outcome m' :=
  fun depth hdepth => h depth (Nat.le_trans hle hdepth)

/-- There is one answer. -/
theorem unique {outcome' : Except EvalError α} (h : Settles n x host m outcome m')
    (h' : Settles k x host m outcome' m'') : outcome = outcome' ∧ m' = m'' := by
  have heq := (h _ (Nat.le_max_left n k)).symm.trans (h' _ (Nat.le_max_right n k))
  exact Prod.mk.inj (Option.some.inj heq)

/-- A step that goes one deeper. -/
theorem of_succ (h : Settles n (fun depth => x (depth + 1)) host m outcome m') :
    Settles (n + 1) x host m outcome m' := by
  intro depth hdepth
  obtain ⟨k, rfl⟩ := Nat.exists_eq_add_of_le' (Nat.one_le_of_lt hdepth)
  exact h k (Nat.le_of_succ_le_succ hdepth)

/-- One computation after the other. -/
theorem bind {f : Nat → α → Interp β} {a : α} {outcome : Except EvalError β}
    (hx : Settles n x host m (.ok a) m')
    (hf : Settles n (fun depth => f depth a) host m' outcome m'') :
    Settles n (fun depth => x depth >>= f depth) host m outcome m'' := by
  intro depth hdepth
  show (x depth >>= f depth) host m = some (outcome, m'')
  rw [bind_apply, hx depth hdepth]
  exact hf depth hdepth

end Settles

end Interp

/-- Permits the evaluation of the allowed values, and every application. -/
def Event.allowedBy (allowed : Value → Bool) : Event → Bool
  | evaluation _ v => allowed v
  | application _ _ _ => true

namespace Eval

/-- Evaluates a value in a scope, at most `depth` steps deep and confined to the allowed values. -/
def confined (allowed : Value → Bool) (depth : Nat) : Evaluator :=
  supervised (Event.allowedBy allowed) depth

/-- The answer of a confined evaluation is that of the evaluation. -/
theorem confined_below (allowed : Value → Bool) (depth : Nat) :
    Evaluator.Below (confined allowed depth) (evaluate depth) :=
  supervised_below _ depth

/-- Where everything is allowed, nothing is confined. -/
theorem confined_eq_evaluate (depth : Nat) : confined (fun _ => true) depth = evaluate depth := by
  funext scope v
  refine supervised_agrees ?_ depth scope v (Eq.refl scope.root)
  intro e _
  cases e <;> rfl

section Rules

open Interp

variable {n : Nat} {allowed : Value → Bool} {host : Host} {scope : Scope} {m m' m'' : Machine}
  {outcome : Except EvalError Value}

/-- What settles under confinement settles. -/
theorem settles_evaluate {v : Value}
    (h : Settles n (fun depth => confined allowed depth scope v) host m outcome m') :
    Settles n (fun depth => evaluate depth scope v) host m outcome m' :=
  fun depth hdepth => confined_below allowed depth scope v host m _ (h depth hdepth)

/-- An allowed value settles one step after what is inside of it. -/
theorem settles_confined {v : Value} (hv : allowed v = true)
    (h : Settles n (fun depth => stepSupervised (Event.allowedBy allowed) (confined allowed depth)
      scope v) host m outcome m') :
    Settles (n + 1) (fun depth => confined allowed depth scope v) host m outcome m' := by
  refine Settles.of_succ ?_
  have hstep (depth : Nat) : confined allowed (depth + 1) scope v
      = stepSupervised (Event.allowedBy allowed) (confined allowed depth) scope v := by
    funext host m
    exact if_pos hv
  simpa only [hstep] using h

/-- A symbol settles at the value that it is bound to. -/
theorem settles_symbol {name : String} {v : Value} (hname : allowed (.symbol name) = true)
    (hv : m.store.get? scope name = some v) :
    Settles (n + 1) (fun depth => confined allowed depth scope (.symbol name)) host m (.ok v)
      m := by
  refine settles_confined hname (Settles.of_forall fun depth => ?_)
  show (Interp.inspectStore (·.get? scope name) >>= _) host m = _
  rw [bind_apply, inspectStore, hv]
  rfl

/-- A final value settles at itself. -/
theorem settles_of_isFinal {v : Value} (hallowed : allowed v = true) (hv : v.isFinal = true) :
    Settles (n + 1) (fun depth => confined allowed depth scope v) host m (.ok v) m := by
  refine settles_confined hallowed (Settles.of_forall fun depth => ?_)
  match v with
  | .symbol name => cases hv
  | .sexpr (item :: items) => cases hv
  | .sexpr [] => rfl
  | .number n | .text content | .qexpr items | .builtin b | .lambda params body captured => rfl

/-- No items settle at no values. -/
theorem settles_items_nil :
    Settles n (fun depth => evaluateItems (confined allowed depth) scope []) host m (.ok []) m :=
  Settles.of_forall fun _ => rfl

/-- Items settle if the first one and the others do. -/
theorem settles_items_cons {item v : Value} {items vs : List Value}
    (hitem : Settles n (fun depth => confined allowed depth scope item) host m (.ok v) m')
    (hitems : Settles n (fun depth => evaluateItems (confined allowed depth) scope items) host m'
      (.ok vs) m'') :
    Settles n (fun depth => evaluateItems (confined allowed depth) scope (item :: items)) host m
      (.ok (v :: vs)) m'' :=
  hitem.bind (hitems.bind (Settles.of_forall fun _ => rfl))

/-- Final values are their own results. -/
theorem settles_items_of_isFinal {vs : List Value} (hallowed : ∀ v ∈ vs, allowed v = true)
    (hvs : ∀ v ∈ vs, v.isFinal = true) :
    Settles (n + 1) (fun depth => evaluateItems (confined allowed depth) scope vs) host m (.ok vs)
      m := by
  induction vs with
  | nil => exact settles_items_nil
  | cons v vs ih =>
    have hrest := ih (fun w hw => hallowed w (List.mem_cons_of_mem v hw))
      fun w hw => hvs w (List.mem_cons_of_mem v hw)
    exact settles_items_cons (settles_of_isFinal (hallowed v List.mem_cons_self)
      (hvs v List.mem_cons_self)) hrest

/-- A single item is its own answer. -/
theorem settles_single {items : List Value} {v : Value} (hallowed : allowed (.sexpr items) = true)
    (hitems : Settles n (fun depth => evaluateItems (confined allowed depth) scope items) host m
      (.ok [v]) m') :
    Settles (n + 1) (fun depth => confined allowed depth scope (.sexpr items)) host m (.ok v) m' :=
  settles_confined hallowed (hitems.bind (Settles.of_forall fun _ => rfl))

/-- The value of the first item is applied to those of the others, of which there is one at
least. -/
theorem settles_call {items args : List Value} {function arg : Value}
    (hallowed : allowed (.sexpr items) = true)
    (hitems : Settles n (fun depth => evaluateItems (confined allowed depth) scope items) host m
      (.ok (function :: arg :: args)) m')
    (happly : Settles n (fun depth => applyWith (confined allowed depth) scope (arg :: args)
      function) host m' outcome m'') :
    Settles (n + 1) (fun depth => confined allowed depth scope (.sexpr items)) host m outcome m'' :=
  settles_confined hallowed (hitems.bind happly)

/-- A lambda that gets all its arguments: its body is evaluated in a new scope inside of the
caller's. -/
theorem settles_invoke {params : List String} {body : List Value} {captured : Scope}
    {args : List Value} {table : Table Value}
    (hbound : Invoke.bindArguments (m.store.tableAt captured.table) params args = .ok (table, []))
    (hbody : Settles n (fun depth => confined allowed depth ⟨m.store.tables.size, scope.chain⟩
      (.sexpr body)) host (m.alloc table) outcome m') :
    Settles n (fun depth => applyWith (confined allowed depth) scope args
      (.lambda params body captured)) host m outcome m' := by
  intro depth hdepth
  show Invoke.invoke (confined allowed depth) params body captured args scope host m = _
  rw [Invoke.invoke_apply, hbound]
  exact hbody depth hdepth

end Rules

end Eval

end QLisp
