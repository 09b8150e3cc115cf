import QLisp.Proofs.SameRun

/-!
# Lambdas do not see where they were made

A lambda holds the scope in which it was made, but a call copies only the bindings in the captured
table itself and puts them inside of the caller's scope. So the scopes around captured tables are
never looked at: machines whose lambdas differ in nothing else cannot be told apart.

Machines are compared through views that show a captured scope as its own table alone. The tables of
the two machines may stand at different addresses; `name` leads from those of the first to those of
the second. The statement is `Eval.evaluate_ignores_parents`.
-/

set_option autoImplicit false

namespace QLisp

/-- The view that shows of a captured scope its own table only, and names tables by `name`. -/
def View.ownTable (name : Nat → Nat) (hname : ∀ a b, name a = name b → a = b) : View where
  address := name
  around _ := []
  address_injective := hname

namespace ViewPair

/-- Two runs compared without the scopes around captured tables, where `name` leads from the tables
of the first run to those of the second. -/
def ownTables (name : Nat → Nat) (hname : ∀ a b, name a = name b → a = b) : ViewPair where
  left := .ownTable name hname
  right := .ownTable id fun _ _ h => h
  around_eq := fun _ _ _ => rfl

/-- Two results that look the same and are shown alike. -/
def SameResult (p : ViewPair) (v w : Value) : Prop :=
  v.render = w.render ∧ p.SameValue v w

/-- Answers that look the same have results that are shown alike. -/
theorem SameAnswer.sameResult {p : ViewPair} {x y : Option (Except EvalError Value × Machine)}
    (h : p.SameAnswer p.SameValue x y) : p.SameAnswer p.SameResult x y := by
  cases h with
  | tooDeep => exact .tooDeep
  | result hresult hmachine => exact .result ⟨hresult.render_eq, hresult⟩ hmachine
  | failure e hmachine => exact .failure e hmachine

variable {name : Nat → Nat} {hname : ∀ a b, name a = name b → a = b}

/-- New scopes look the same wherever they are opened. -/
theorem child_anywhere (s t : Scope) :
    (ownTables name hname).SameRun
      (fun captured captured' => captured.seen (ownTables name hname).left
        = captured'.seen (ownTables name hname).right)
      (Interp.newScope (·.child s)) (Interp.newScope (·.child t)) := by
  intro host m n hm
  have hempty : (ownTables name hname).SameTable .empty .empty := rfl
  have hfresh : name m.store.tables.size = n.store.tables.size := hm.store.fresh 0
  refine .result ?_ ⟨hm.store.alloc hempty, hm.printed, hm.requests, hm.input⟩
  show (⟨name m.store.tables.size, []⟩ : Scope) = ⟨n.store.tables.size, []⟩
  rw [hfresh]

/-- Lambdas look the same wherever they are made. -/
theorem lambda_anywhere (f g : Evaluator) (s t : Scope) {args args' : List Value}
    (hargs : (ownTables name hname).SameValues args args') :
    (ownTables name hname).SameRun (ownTables name hname).SameValue
      (Eval.applyWith f s args (.builtin .lambda))
      (Eval.applyWith g t args' (.builtin .lambda)) := by
  have hparts : (Primitive.lambdaParts args).map
        (Prod.map id (List.map (Value.seen (ownTables name hname).left)))
      = (Primitive.lambdaParts args').map
        (Prod.map id (List.map (Value.seen (ownTables name hname).right))) := by
    rw [← Primitive.lambdaParts_seen, ← Primitive.lambdaParts_seen, hargs]
  refine SameRun.bind (SameRun.ofExcept hparts) ?_
  rintro ⟨params, body⟩ ⟨params', body'⟩ hparts
  obtain ⟨hparams, hbody⟩ := Prod.mk.inj hparts
  refine SameRun.bind (child_anywhere s t) ?_
  intro captured captured' hcaptured
  exact SameRun.pure (sameValue_lambda_iff.mpr ⟨hparams, hbody, hcaptured⟩)

end ViewPair

namespace Eval

open ViewPair

/-- Dynamic scope. Let two machines be the same up to the addresses of tables and up to the scopes
around the tables captured in lambdas. Then the same value, evaluated in corresponding scopes, has
the same outcome: results that are shown alike or the same error, the same prints, and machines that
are the same in this sense again. In particular, lambdas that are made from the same parts in any
two scopes whatever answer alike when they are called. -/
theorem evaluate_ignores_parents (name : Nat → Nat) (hname : ∀ a b, name a = name b → a = b)
    (depth : Nat) (host : Host) (m n : Machine) :
    let p := ownTables name hname
    p.SameMachine m n →
    (∀ (s t : Scope) (v w : Value), p.SameScope s t → p.SameValue v w →
      p.SameAnswer p.SameResult (evaluate depth s v host m) (evaluate depth t w host n))
    ∧ ∀ (s t : Scope) (parts parts' : List Value) (f g : Value) (m' n' : Machine),
      p.SameValues parts parts' →
      applyWith (evaluate depth) s parts (.builtin .lambda) host m = some (.ok f, m') →
      applyWith (evaluate depth) t parts' (.builtin .lambda) host n = some (.ok g, n') →
      ∀ (caller caller' : Scope) (args args' : List Value), p.SameScope caller caller' →
        p.SameValues args args' →
        p.SameAnswer p.SameResult (applyWith (evaluate depth) caller args f host m')
          (applyWith (evaluate depth) caller' args' g host n') := by
  intro p hm
  have hevaluate : p.SameEvaluator (evaluate depth) (evaluate depth) := evaluate_same p depth
  constructor
  · intro s t v w hscope hvalue
    exact (hevaluate s t v w hscope hvalue host m n hm).sameResult
  · intro s t parts parts' f g m' n' hparts hf hg caller caller' args args' hcaller hargs
    have hmade := lambda_anywhere (evaluate depth) (evaluate depth) s t hparts host m n hm
    rw [hf, hg] at hmade
    cases hmade with
    | result hlambda hmachine =>
      exact (applyWith_same hevaluate hcaller hargs hlambda host m' n' hmachine).sameResult

/-- A lambda whose captured scope has lost what is around it answers what it has answered before. -/
theorem evaluate_ignores_parents_call :
    let machine (around : List Nat) : Machine :=
      ⟨⟨#[⟨[("f", .lambda ["_"] [.symbol "x"] ⟨1, around⟩), ("x", .number ⟨1, 0⟩)]⟩, .empty,
        ⟨[("x", .number ⟨5, 0⟩)]⟩]⟩, #[], #[], .nothing⟩
    let answer (m : Machine) :=
      evaluate 4 ⟨0, []⟩ (.sexpr [.symbol "f", .number ⟨2, 0⟩]) (fun _ => .input) m
    let p := ownTables id fun _ _ h => h
    (∃ m, answer (machine [2, 0]) = some (.ok (.number ⟨1, 0⟩), m))
      ∧ p.SameAnswer p.SameResult (answer (machine [2, 0])) (answer (machine [])) := by
  intro machine answer p
  have hsame : p.SameMachine (machine [2, 0]) (machine []) := by
    refine ⟨⟨?_, fun _ => rfl⟩, rfl, rfl, rfl⟩
    rintro a b rfl
    match a with
    | 0 | 1 | 2 | _ + 3 => rfl
  refine ⟨⟨_, rfl⟩, ?_⟩
  exact (evaluate_ignores_parents id (fun _ _ h => h) 4 _ (machine [2, 0]) (machine [])
    hsame).1 ⟨0, []⟩ ⟨0, []⟩ _ _ rfl rfl

end Eval

end QLisp
