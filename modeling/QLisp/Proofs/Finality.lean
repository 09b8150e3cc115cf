import QLisp.Prelude.Load
import QLisp.Proofs.Evolution

/-!
# Results are final

A run starts with the builtins and goes on by calls of the interpreter, by loading the prelude and
by opening scopes, in any order and in any scopes. At every point of a run the tables bind names to
final values, and every result of a call is final, where a function is applied to final arguments.
A final value is its own result in every scope, so a result can be evaluated again without any
effect.

The statement is `Machine.Reached.results_are_final`.
-/

set_option autoImplicit false

namespace QLisp

/-- The machines at the points of a run. -/
inductive Machine.Reached : Machine → Prop
  | start {m : Machine} (h : m.store = withBuiltins.1.store) : Reached m
  | call {m m' : Machine} (h : Reached m) (depth : Nat) (scope : Scope) {call : Call}
    (hcall : call.AllArguments fun v => v.isFinal = true) (host : Host)
    {outcome : Except EvalError Value}
    (heq : call.perform (Eval.evaluate depth) scope host m = some (outcome, m')) : Reached m'
  | loadPrelude {m m' : Machine} (h : Reached m) (scope : Scope) (host : Host)
    {outcome : Except EvalError Unit} (heq : Prelude.load scope host m = some (outcome, m')) :
    Reached m'
  | newScope {m m' : Machine} (h : Reached m) (scope : Scope) (host : Host)
    {outcome : Except EvalError Scope}
    (heq : Interp.newScope (·.child scope) host m = some (outcome, m')) : Reached m'

/-- A final value is its own result, and finding it has no effect. -/
theorem Eval.evaluate_of_isFinal {v : Value} (hv : v.isFinal = true) (depth : Nat)
    (scope : Scope) (host : Host) (m : Machine) :
    evaluate (depth + 1) scope v host m = some (.ok v, m) := by
  match v with
  | .symbol name => cases hv
  | .sexpr (item :: items) => cases hv
  | .sexpr [] => rfl
  | .number n | .text content | .qexpr items | .builtin b | .lambda params body captured => rfl

section

variable {P : Value → Prop} (hP : ∀ v : Value, v.isFinal = true → P v)

include hP

/-- Loading the prelude binds final values, in the scope and the root. -/
theorem Prelude.load_acts (scope : Scope) :
    Interp.Acts P (scope.MayChange True) (fun _ => True) (load scope) := by
  have hsource : ∀ source, Interp.Acts P (scope.MayChange True) (fun _ => True)
      (loadDefinition scope source) := by
    intro source
    refine Interp.Acts.bind ((Eval.evaluate_acts hP _).runSource hP source) ?_
    exact fun _ _ => Interp.Acts.pure trivial
  have hsources : ∀ sources, Interp.Acts P (scope.MayChange True) (fun _ => True)
      (loadDefinitions scope sources) := by
    intro sources
    induction sources with
    | nil => exact Interp.Acts.pure trivial
    | cons source rest ih => exact Interp.Acts.bind (hsource source) fun _ _ => ih
  exact hsources definitions

end

/-- The tables of a fresh root hold the builtins only. -/
theorem Machine.all_withBuiltins {P : Value → Prop} (hbuiltin : ∀ b : Builtin, P (.builtin b)) :
    withBuiltins.1.store.All P := by
  have hempty : (Store.empty : Store Value).All P := fun _ => Table.All.empty
  have hroot : Store.Evolves P (fun _ => True) .empty
      (Store.empty.newRoot : Store Value × Scope).1 := Store.Evolves.refl.alloc Table.All.empty
  refine (hroot.defineAll trivial ?_).all hempty
  intro binding hbinding
  obtain ⟨b, -, rfl⟩ := List.mem_map.mp hbinding
  exact hbuiltin b

/-- A computation that binds values with a property keeps it. -/
theorem Interp.Acts.all {α : Type} {P : Value → Prop} {may : Nat → Prop} {Q : α → Prop}
    {x : Interp α} (hx : Acts P may Q x) {host : Host} {m m' : Machine}
    {outcome : Except EvalError α} (hall : m.store.All P)
    (heq : x host m = some (outcome, m')) : m'.store.All P :=
  (hx host m outcome m' hall heq).1.all hall

namespace Machine.Reached

variable {m : Machine}

/-- What every operation of a run keeps: the values in all tables are final. -/
theorem all_isFinal (h : m.Reached) : m.store.All fun v => v.isFinal = true := by
  have hfinal : ∀ v : Value, v.isFinal = true → v.isFinal = true := fun _ hv => hv
  induction h with
  | start h =>
    rw [h]
    exact all_withBuiltins fun _ => rfl
  | call _ depth scope hcall host heq ih =>
    exact (Call.perform_acts hfinal (Eval.evaluate_acts hfinal depth) hcall).all ih heq
  | loadPrelude _ scope host heq ih => exact (Prelude.load_acts hfinal scope).all ih heq
  | newScope _ scope host heq ih =>
    obtain ⟨-, rfl⟩ := Prod.mk.inj (Option.some.inj heq)
    exact ih.alloc Table.All.empty

/-- At every point of a run the values in all tables are final, and so is every result of a call,
where a function is applied to final arguments; a final value, evaluated again to whatever depth
there is and in whatever scope, is its own result and leaves the machine as it is. -/
theorem results_are_final (h : m.Reached) :
    (∀ a name v, (m.store.tableAt a).get? name = some v → v.isFinal = true)
    ∧ ∀ (depth : Nat) (scope : Scope) (call : Call) (host : Host) (v : Value) (m' : Machine),
      call.AllArguments (fun v => v.isFinal = true) →
      call.perform (Eval.evaluate depth) scope host m = some (.ok v, m') →
      v.isFinal = true
        ∧ ∀ (more : Nat) (other : Scope) (host' : Host) (n : Machine),
          Eval.evaluate (more + 1) other v host' n = some (.ok v, n) := by
  have hall := h.all_isFinal
  constructor
  · intro a name v hv
    exact (hall a).get? hv
  · intro depth scope call host v m' hcall heq
    have hfinal : ∀ v : Value, v.isFinal = true → v.isFinal = true := fun _ hv => hv
    have hacts : Interp.Acts (fun v => v.isFinal = true) (scope.MayChange True)
        (fun v => v.isFinal = true) (call.perform (Eval.evaluate depth) scope) :=
      Call.perform_acts hfinal (Eval.evaluate_acts hfinal depth) hcall
    have hv : v.isFinal = true := (hacts host m (.ok v) m' hall heq).2 v rfl
    exact ⟨hv, Eval.evaluate_of_isFinal hv⟩

set_option maxRecDepth 2000 in
/-- A list of symbols is a result, and its own result again. -/
theorem results_are_final_defined :
    ∃ m : Machine, m.Reached
      ∧ Call.perform (Eval.evaluate 2) ⟨0, []⟩ (.apply (.builtin .evaluate) [.qexpr [.symbol "x"]])
          (fun _ => .input) m = some (.ok (.qexpr [.symbol "y"]), m)
      ∧ (Value.qexpr [.symbol "y"]).isFinal = true
      ∧ Eval.evaluate 1 ⟨7, []⟩ (.qexpr [.symbol "y"]) (fun _ => .input) m
          = some (.ok (.qexpr [.symbol "y"]), m) := by
  obtain ⟨m, hdefine, hfound⟩ : ∃ m,
      Call.perform (Eval.evaluate 0) ⟨0, []⟩
          (.apply (.builtin .define) [.qexpr [.symbol "x"], .qexpr [.symbol "y"]])
          (fun _ => .input) withBuiltins.1 = some (.ok .unit, m)
        ∧ Call.perform (Eval.evaluate 2) ⟨0, []⟩
          (.apply (.builtin .evaluate) [.qexpr [.symbol "x"]]) (fun _ => .input) m
            = some (.ok (.qexpr [.symbol "y"]), m) := ⟨_, rfl, rfl⟩
  have hreached : m.Reached :=
    .call (.start rfl) 0 ⟨0, []⟩ (by simp [Call.AllArguments, Value.isFinal]) _ hdefine
  obtain ⟨-, hresult⟩ := results_are_final hreached
  obtain ⟨hfinal, hagain⟩ :=
    hresult 2 _ _ _ _ _ (by simp [Call.AllArguments, Value.isFinal]) hfound
  exact ⟨m, hreached, hfound, hfinal, hagain 0 _ _ m⟩

end Machine.Reached

end QLisp
