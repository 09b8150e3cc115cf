import QLisp.Proofs.Prelude.Rules

/-!
# Code that fails

An error ends the evaluation of everything around it: of the items of a call, of the call, of the
body that it stands in. What has happened before it stays. The rules here follow an error outwards;
what comes before it is followed by the rules for contexts.

`Context.Fails` says of a computation that wherever the context holds it settles with one error and
leads to a context. `Raises` and `RaisesAll` say it of code, `Rejects` of a function called by its
name. `Machine.Fails` is what is known at a machine, where nothing that was there has changed
(`Machine.Fails.of_raises`).
-/

set_option autoImplicit false

namespace QLisp

open Interp Eval

/-! ## Errors among items -/

/-- What comes after an error does not happen. -/
theorem Interp.Settles.bind_error {α β : Type} {n : Nat} {x : Nat → Interp α} {host : Host}
    {m m' : Machine} {f : Nat → α → Interp β} {e : EvalError}
    (hx : Settles n x host m (.error e) m') :
    Settles n (fun depth => x depth >>= f depth) host m (.error e) m' := by
  intro depth hdepth
  show (x depth >>= f depth) host m = some (.error e, m')
  rw [bind_apply, hx depth hdepth]

namespace Eval

variable {n : Nat} {allowed : Value → Bool} {host : Host} {scope : Scope} {m m' m'' : Machine}
  {e : EvalError} {items : List Value}

/-- Items fail where the first one does. -/
theorem settles_items_error {item : Value}
    (hitem : Settles n (fun depth => confined allowed depth scope item) host m (.error e) m') :
    Settles n (fun depth => evaluateItems (confined allowed depth) scope (item :: items)) host m
      (.error e) m' :=
  hitem.bind_error

/-- Items fail where those behind the first one do. -/
theorem settles_items_cons_error {item v : Value}
    (hitem : Settles n (fun depth => confined allowed depth scope item) host m (.ok v) m')
    (hitems : Settles n (fun depth => evaluateItems (confined allowed depth) scope items) host m'
      (.error e) m'') :
    Settles n (fun depth => evaluateItems (confined allowed depth) scope (item :: items)) host m
      (.error e) m'' :=
  hitem.bind hitems.bind_error

/-- A call fails where its items do. -/
theorem settles_call_error (hallowed : allowed (.sexpr items) = true)
    (hitems : Settles n (fun depth => evaluateItems (confined allowed depth) scope items) host m
      (.error e) m') :
    Settles (n + 1) (fun depth => confined allowed depth scope (.sexpr items)) host m
      (.error e) m' :=
  settles_confined hallowed hitems.bind_error

end Eval

namespace Context

/-- In every machine with the tables of `c`, the computation settles with the error `e`, prints
`lines` and changes, of the tables there are, at most that of the scope. The machine it leaves has
the tables of `c'`. -/
abbrev Fails {α : Type} (c : Context) (x : Nat → Interp α) (lines : List String) (e : EvalError)
    (c' : Context) : Prop :=
  c.Reaches x lines (.error e) c'

/-- The evaluation of `v`, if `v` may be evaluated as code, fails. -/
def Raises (c : Context) (v : Value) (lines : List String) (e : EvalError) (c' : Context) : Prop :=
  c.Trusts v → c.Fails (c.evaluate v) lines e c'

/-- The evaluation of `vs` from left to right fails. -/
def RaisesAll (c : Context) (vs : List Value) (lines : List String) (e : EvalError)
    (c' : Context) : Prop :=
  (∀ v ∈ vs, c.Trusts v) → c.Fails (c.evaluateAll vs) lines e c'

/-- The application of the function of a name fails and changes none of the tables there are. -/
def Rejects (c : Context) (name : String) (args : List Value) (lines : List String)
    (e : EvalError) : Prop :=
  ∃ f, c.get? name = some f ∧ c.Fails (c.apply f args) lines e c

variable {c c' c'' : Context} {lines lines' : List String} {v r : Value} {e : EvalError}

/-! ## Code that fails -/

/-- Values raise an error where the first one does. -/
theorem RaisesAll.head {vs : List Value} (h : c.Raises v lines e c') :
    c.RaisesAll (v :: vs) lines e c' :=
  fun htrust => (h (htrust v List.mem_cons_self)).imp fun n _ _ hitem =>
    (settles_items_error hitem).mono (Nat.le_succ n)

/-- Values raise an error where those behind the first one do. -/
theorem RaisesAll.cons {vs : List Value} (h : c.Evaluates v lines r c')
    (hs : c'.RaisesAll vs lines' e c'') : c.RaisesAll (v :: vs) (lines ++ lines') e c'' := by
  intro htrust
  have hfirst := h (htrust v List.mem_cons_self)
  unfold RaisesAll at hs
  rw [hfirst.1] at hs
  have hrest := hs fun w hw => htrust w (List.mem_cons_of_mem v hw)
  exact Reaches.andThen hfirst hrest fun n _ _ _ hitem hitems =>
    (settles_items_cons_error hitem hitems).mono (Nat.le_succ n)

/-- An error among the items of a call is that of the call. -/
theorem Raises.items {items : List Value} (h : c.RaisesAll items lines e c') :
    c.Raises (.sexpr items) lines e c' :=
  fun htrust => (h fun _ hv => htrust.item hv).imp fun _ _ _ => settles_call_error htrust.self

/-- A call of a value. -/
theorem Raises.apply {items : List Value} {f a : Value} {as : List Value}
    (hitems : c.EvaluatesAll items lines (f :: a :: as) c')
    (happly : c'.Fails (c'.apply f (a :: as)) lines' e c'') :
    c.Raises (.sexpr items) (lines ++ lines') e c'' := by
  intro htrust
  have hleads := hitems fun v hv => htrust.item hv
  rw [hleads.1] at happly
  exact Reaches.andThen hleads happly fun _ _ _ _ => settles_call htrust.self

/-- A call of a function by its name. -/
theorem Rejects.call {name : String} {args : List Value} {a : Value} {as : List Value}
    (h : c.Rejects name (a :: as) lines' e) (hargs : c.EvaluatesAll args lines (a :: as) c) :
    c.Raises (Prelude.call name args) (lines ++ lines') e c := by
  obtain ⟨f, hf, hfails⟩ := h
  exact .apply (.cons (.symbol hf) hargs) hfails

/-- `if` with one of two lists that fails. -/
theorem Raises.branch (hif : c.get? "if" = some (.builtin .branch)) {condition : Value}
    {n : Decimal} {onTrue onFalse : List Value} (hcondition : c.Gives condition (.number n))
    (hbody : c.Raises (.sexpr (if n.isZero then onFalse else onTrue)) lines e c') :
    c.Raises (.sexpr (Prelude.branch condition onTrue onFalse)) lines e c' := by
  intro htrust
  exact Raises.apply (.cons (.symbol hif) (.branch hcondition))
    (hbody (htrust.chosen n.isZero)) htrust

/-! ## Functions that fail -/

/-- `error` fails with its argument. -/
theorem Fails.raise (message : String) :
    c.Fails (c.apply (.builtin .raise) [.text message]) [] (.user message) c :=
  .of_exists_prints fun m _ => ⟨m, .refl m, 0, Settles.of_forall fun _ => rfl⟩

/-- A function of the prelude that gets all its arguments and fails in its body. -/
theorem Unconfined.rejects {host : Host} {s : Store Value} (h : c.Unconfined host s)
    (f : Prelude.Function) {args : List Value} {table : Table Value}
    (hbound : Invoke.bindArguments .empty f.params args = .ok (table, []))
    (hbody : ∀ c', c.Enters table c' → c'.Unconfined host s →
      ∃ c'', c'.Raises (.sexpr f.body) lines e c'') : c.Rejects f.name args lines e := by
  obtain ⟨captured, hname, hlt, hempty⟩ := h.holds (Prelude.function_mem_script f)
  refine ⟨_, hname, Reaches.lambda hlt (by rw [hempty]; exact hbound) (h.trusts f) ?_⟩
  exact fun c' henters => hbody c' henters
    (h.enter henters (h.enterCall (Prelude.params_not_reserved f) hbound henters))

end Context

/-! ## Failures at a machine -/

namespace Machine

open Prelude

variable {m : Machine} {host : Host} {scope : Scope} {lines lines' : List String} {v r : Value}
  {e : EvalError}

/-- The evaluation of a value fails with `e`. It prints `lines` and changes none of the tables there
are. -/
def Fails (m : Machine) (host : Host) (scope : Scope) (v : Value) (lines : List String)
    (e : EvalError) : Prop :=
  ∃ m', m.Prints lines m' ∧
    ∃ n, Settles n (fun depth => evaluate depth scope v) host m (.error e) m'

/-- What has a result does not fail. -/
theorem Yields.not_fails (h : m.Yields host scope v lines r) : ¬ m.Fails host scope v lines' e := by
  rintro ⟨m₁, -, n, herror⟩
  obtain ⟨m₂, -, k, hok⟩ := h
  cases (herror.unique hok).1

/-- A value fails where the prelude is in force if it raises an error in every context there. -/
theorem Fails.of_raises (h : InForce m.store scope)
    (hv : ∀ c : Context, c.Unconfined host m.store → c.Raises v lines e c) :
    m.Fails host scope v lines e := by
  have hc := m.unconfined_openContext host h
  obtain ⟨m', hprints, n, hsettles⟩ := (hv _ hc (hc.trusts_all v)).exists_prints (.refl m.store)
  exact ⟨m', hprints, n, settles_evaluate hsettles⟩

end Machine

end QLisp
