import QLisp.Proofs.Prelude.Rules

/-!
# Code in the last place

The rules for contexts follow code to a result that can be named beforehand. The result of a call
with too few arguments cannot: it is a lambda with a new table, whose address depends on the
machine. But where a call is the last thing that a body does, its outcome is that of the body,
whatever it is, and a property of it is all that has to be known.

`Context.Ends` says of a computation that wherever the context holds it settles with an outcome that
has a property. `Concludes` says it of code, `Replies` of a function called by its name. There is
one rule for each form of code in the last place; what comes before it is followed by the rules for
contexts.
-/

set_option autoImplicit false

namespace QLisp

open Interp Eval

namespace Context

/-- In every machine with the tables of `c`, the computation settles with an outcome that has the
property `Q`, prints `lines` and changes none of the tables there are. -/
def Ends (c : Context) (x : Nat → Interp Value) (lines : List String)
    (Q : Except EvalError Value → Prop) : Prop :=
  ∀ m, c.store.Extends m.store → ∃ m', m.Prints lines m' ∧
    ∃ outcome, Q outcome ∧ ∃ n, Settles n x c.host m outcome m'

/-- The evaluation of `v`, if `v` may be evaluated as code, ends so. -/
def Concludes (c : Context) (v : Value) (lines : List String)
    (Q : Except EvalError Value → Prop) : Prop :=
  c.Trusts v → c.Ends (c.evaluate v) lines Q

/-- The application of the function of a name ends so. -/
def Replies (c : Context) (name : String) (args : List Value) (lines : List String)
    (Q : Except EvalError Value → Prop) : Prop :=
  ∃ f, c.get? name = some f ∧ c.Ends (c.apply f args) lines Q

variable {c c' : Context} {lines lines' : List String} {Q : Except EvalError Value → Prop}
  {v r : Value}

/-! ## Outcomes that are known -/

/-- What leads to a result ends with it. -/
theorem Leads.ends {x : Nat → Interp Value} (h : c.Leads x lines r c) (hQ : Q (.ok r)) :
    c.Ends x lines Q := by
  intro m hm
  obtain ⟨m', hprints, hsettles⟩ := h.exists_prints hm
  exact ⟨m', hprints, _, hQ, hsettles⟩

/-- What evaluates to a result concludes with it. -/
theorem Evaluates.concludes (h : c.Evaluates v lines r c) (hQ : Q (.ok r)) :
    c.Concludes v lines Q :=
  fun htrust => (h htrust).ends hQ

/-- A function that answers replies. -/
theorem Answers.replies {name : String} {args : List Value} (h : c.Answers name args lines r)
    (hQ : Q (.ok r)) : c.Replies name args lines Q := by
  obtain ⟨f, hf, happly⟩ := h
  exact ⟨f, hf, Leads.ends happly hQ⟩

/-- A reply that is a result is an answer. -/
theorem Replies.answers {name : String} {args : List Value}
    (h : c.Replies name args lines (· = .ok r)) : c.Answers name args lines r := by
  obtain ⟨f, hf, hends⟩ := h
  refine ⟨f, hf, Leads.of_exists_prints fun m hm => ?_⟩
  obtain ⟨m', hprints, _, rfl, hsettles⟩ := hends m hm
  exact ⟨m', hprints, hsettles⟩

/-! ## Calls -/

/-- Final values are their own results. -/
theorem EvaluatesAll.final {vs : List Value} (h : ∀ v ∈ vs, v.isFinal = true) :
    c.EvaluatesAll vs [] vs c := by
  induction vs with
  | nil => exact .nil
  | cons v vs ih =>
    rw [List.forall_mem_cons] at h
    exact .cons (.final h.1) (ih h.2)

/-- A computation that leads back to its context, and one in the last place after it. -/
theorem Leads.andEnds {α : Type} {x : Nat → Interp α} {a : α} {y z : Nat → Interp Value}
    (hx : c.Leads x lines a c) (hy : c.Ends y lines' Q)
    (h : ∀ n m m' m'' outcome, Settles n x c.host m (.ok a) m' →
      Settles n y c.host m' outcome m'' → Settles (n + 1) z c.host m outcome m'') :
    c.Ends z (lines ++ lines') Q := by
  intro m hm
  obtain ⟨m', hprints, n, hsettles⟩ := hx.exists_prints hm
  obtain ⟨m'', hprints', outcome, hQ, k, hsettles'⟩ := hy m' (hm.trans hprints.store_extends)
  exact ⟨m'', hprints.trans hprints', outcome, hQ, max n k + 1, h _ m m' m'' outcome
    (hsettles.mono (Nat.le_max_left n k)) (hsettles'.mono (Nat.le_max_right n k))⟩

/-- A call of a value. -/
theorem Concludes.apply {items : List Value} {f a : Value} {as : List Value}
    (hitems : c.EvaluatesAll items lines (f :: a :: as) c)
    (happly : c.Ends (c.apply f (a :: as)) lines' Q) :
    c.Concludes (.sexpr items) (lines ++ lines') Q := by
  intro htrust
  exact (hitems fun v hv => htrust.item hv).andEnds happly fun _ _ _ _ _ =>
    settles_call htrust.self

/-- A call of a function by its name. -/
theorem Replies.call {name : String} {args : List Value} {a : Value} {as : List Value}
    (h : c.Replies name (a :: as) lines' Q) (hargs : c.EvaluatesAll args lines (a :: as) c) :
    c.Concludes (Prelude.call name args) (lines ++ lines') Q := by
  obtain ⟨f, hf, hends⟩ := h
  exact .apply (.cons (.symbol hf) hargs) hends

/-- The function of a name as a value. -/
theorem Replies.ends {name : String} {args : List Value} (h : c.Replies name args lines Q)
    {f : Value} (hf : c.get? name = some f) : c.Ends (c.apply f args) lines Q := by
  obtain ⟨f', hf', hends⟩ := h
  obtain rfl := Option.some.inj (hf'.symm.trans hf)
  exact hends

/-- `if` with one of two lists in the last place. -/
theorem Concludes.branch (hif : c.get? "if" = some (.builtin .branch)) {condition : Value}
    {n : Decimal} {onTrue onFalse : List Value} (hcondition : c.Gives condition (.number n))
    (hbody : c.Concludes (.sexpr (if n.isZero then onFalse else onTrue)) lines Q) :
    c.Concludes (.sexpr (Prelude.branch condition onTrue onFalse)) lines Q := by
  intro htrust
  exact Concludes.apply (.cons (.symbol hif) (.branch hcondition))
    (hbody (htrust.chosen n.isZero)) htrust

/-- `eval` with a list in the last place. -/
theorem Concludes.eval (heval : c.get? "eval" = some (.builtin .evaluate)) {items : List Value}
    (hitems : c.Trusts (.sexpr items)) (hlist : c.Gives v (.qexpr items))
    (hbody : c.Concludes (.sexpr items) lines Q) :
    c.Concludes (.sexpr [.symbol "eval", v]) lines Q :=
  Concludes.apply (.cons (.symbol heval) (.cons hlist .nil)) (hbody hitems)

/-! ## Lambdas -/

/-- A lambda that gets all its arguments ends as its body does. -/
theorem Ends.lambda {params : List String} {body : List Value} {captured : Scope}
    {args : List Value} {table : Table Value} (hcaptured : captured.table < c.store.tables.size)
    (hbound : Invoke.bindArguments (c.store.tableAt captured.table) params args = .ok (table, []))
    (htrust : c.Trusts (.sexpr body))
    (hbody : ∀ c', c.Enters table c' → c'.Concludes (.sexpr body) lines Q) :
    c.Ends (c.apply (.lambda params body captured) args) lines Q := by
  intro m hm
  obtain ⟨m', hprints, outcome, hQ, n, hsettles⟩ :=
    hbody (c.inside hm table) (enters_inside hm table) htrust (m.alloc table) (.refl _)
  refine ⟨m', (m.prints_alloc table).trans hprints, outcome, hQ, n, settles_invoke ?_ hsettles⟩
  rw [hm.tableAt_eq _ hcaptured]
  exact hbound

/-- A lambda that gets too few arguments is answered with a new lambda. -/
theorem Ends.partial {params : List String} {body : List Value} {captured : Scope}
    {args : List Value} {table : Table Value} {param : String} {left : List String}
    (hcaptured : captured.table < c.store.tables.size)
    (hbound : Invoke.bindArguments (c.store.tableAt captured.table) params args
      = .ok (table, param :: left)) :
    c.Ends (c.apply (.lambda params body captured) args) []
      (fun outcome => ∃ scope, outcome = .ok (.lambda (param :: left) body scope)) := by
  intro m hm
  refine ⟨m.alloc table, m.prints_alloc table, _, ⟨⟨m.store.tables.size, []⟩, rfl⟩, 0, ?_⟩
  refine Settles.of_forall fun depth => ?_
  show Invoke.invoke _ params body captured args _ c.host m = _
  rw [Invoke.invoke_apply, hm.tableAt_eq _ hcaptured, hbound]
  rfl

/-- `\` makes a lambda that holds no bindings. -/
theorem exists_settles_lambda (hlambda : c.get? "\\" = some (.builtin .lambda))
    {params : List String} {body : List Value}
    (htrust : c.Trusts (Prelude.call "\\" [.qexpr (params.map .symbol), .qexpr body]))
    {m : Machine} (hm : c.store.Extends m.store) :
    ∃ m' captured, m.Prints [] m' ∧ captured.table < m'.store.tables.size ∧
      m'.store.tableAt captured.table = .empty ∧
      ∃ n, Settles n (c.evaluate (Prelude.call "\\" [.qexpr (params.map .symbol), .qexpr body]))
        c.host m (.ok (.lambda params body captured)) m' := by
  have hitems : c.EvaluatesAll (.symbol "\\" :: [.qexpr (params.map .symbol), .qexpr body]) []
      [.builtin .lambda, .qexpr (params.map .symbol), .qexpr body] c :=
    .cons (.symbol hlambda) (.cons (.final rfl) (.cons (.final rfl) .nil))
  obtain ⟨m', hprints, n, hsettles⟩ := (hitems fun v hv => htrust.item hv).exists_prints hm
  have hmade := settles_call htrust.self hsettles (Settles.of_forall fun depth =>
    applyWith_lambda_of_parts (confined c.allowed depth) c.scope c.host m'
      (Primitive.lambdaParts_symbols params body))
  refine ⟨m'.alloc .empty, ⟨m'.store.tables.size, c.scope.chain⟩,
    hprints.trans (m'.prints_alloc .empty), ?_, Store.tableAt_alloc_self _ _, n + 1, hmade⟩
  rw [Machine.alloc, Store.size_alloc]
  exact Nat.lt_succ_self _

/-- A call with a new lambda for its first argument. Of the lambda it is known that it holds no
bindings, in a store that has its table. -/
theorem Concludes.callLambda (hlambda : c.get? "\\" = some (.builtin .lambda)) {name : String}
    {f : Value} (hf : c.get? name = some f) {params : List String} {body args vs : List Value}
    (hargs : c.EvaluatesAll args lines vs c)
    (happly : ∀ (c' : Context) (captured : Scope), c'.toSetting = c.toSetting →
      c.store.Extends c'.store → captured.table < c'.store.tables.size →
      c'.store.tableAt captured.table = .empty →
      c'.Ends (c'.apply f (.lambda params body captured :: vs)) lines' Q) :
    c.Concludes (Prelude.call name
      (Prelude.call "\\" [.qexpr (params.map .symbol), .qexpr body] :: args))
      (lines ++ lines') Q := by
  intro htrust m hm
  have hname : Settles 1 (c.evaluate (.symbol name)) c.host m (.ok f) m := by
    refine settles_symbol (htrust.item List.mem_cons_self).self ?_
    rw [hm.get? c.below]
    exact hf
  obtain ⟨m₁, captured, hprints₁, htable, hempty, n₁, hsettles₁⟩ :=
    exists_settles_lambda hlambda (htrust.item (List.mem_cons_of_mem _ List.mem_cons_self)) hm
  -- the arguments are evaluated behind the new table, and change none of the tables there are
  have hm₁ := hm.trans hprints₁.store_extends
  obtain ⟨m₂, hprints₂, n₂, hsettles₂⟩ := (hargs fun v hv =>
    htrust.item (by simp [hv])).exists_prints hm₁
  have hstore := hprints₂.store_extends
  have hextends := hm₁.trans hstore
  obtain ⟨m₃, hprints₃, outcome, hQ, n₃, hsettles₃⟩ := happly
    ⟨c.toSetting, m₂.store, c.below.mono hextends.size_le⟩ captured rfl hextends
    (Nat.lt_of_lt_of_le htable hstore.size_le) ((hstore.tableAt_eq _ htable).trans hempty) m₂
    (.refl _)
  refine ⟨m₃, (hprints₁.trans hprints₂).trans hprints₃, outcome, hQ, n₁ + n₂ + n₃ + 1 + 1,
    settles_call htrust.self (settles_items_cons (hname.mono ?_) (settles_items_cons
      (hsettles₁.mono ?_) (hsettles₂.mono ?_))) (hsettles₃.mono ?_)⟩ <;> omega

/-- What is known of a scope holds in any store that has more tables. -/
theorem Unconfined.later {host : Host} {s : Store Value} (h : c.Unconfined host s)
    (hsetting : c'.toSetting = c.toSetting) (hextends : c.store.Extends c'.store) :
    c'.Unconfined host c'.store := by
  obtain ⟨setting, store, below⟩ := c'
  obtain rfl := hsetting
  exact ⟨⟨h.inForce.of_extends hextends, h.allowed_eq⟩, h.host_eq, h.allowed_all, .refl _⟩

/-- A function of the prelude that gets all its arguments ends as its body does in the scopes where
it can start. -/
theorem Unconfined.replies {host : Host} {s : Store Value} (h : c.Unconfined host s)
    (f : Prelude.Function) {args : List Value} {table : Table Value}
    (hbound : Invoke.bindArguments .empty f.params args = .ok (table, []))
    (hbody : ∀ c', c.Enters table c' → c'.Unconfined host s →
      c'.Concludes (.sexpr f.body) lines Q) : c.Replies f.name args lines Q := by
  obtain ⟨captured, hname, hlt, hempty⟩ := h.holds (Prelude.function_mem_script f)
  refine ⟨_, hname, Ends.lambda hlt (by rw [hempty]; exact hbound) (h.trusts f) ?_⟩
  exact fun c' henters => hbody c' henters
    (h.enter henters (h.enterCall (Prelude.params_not_reserved f) hbound henters))

/-- A function of the prelude that gets too few arguments is answered with a new lambda. -/
theorem HasPrelude.replies_partial (h : c.HasPrelude) (f : Prelude.Function) {args : List Value}
    {table : Table Value} {param : String} {left : List String}
    (hbound : Invoke.bindArguments .empty f.params args = .ok (table, param :: left)) :
    c.Replies f.name args []
      (fun outcome => ∃ scope, outcome = .ok (.lambda (param :: left) f.body scope)) := by
  obtain ⟨captured, hname, hlt, hempty⟩ := h.holds (Prelude.function_mem_script f)
  exact ⟨_, hname, Ends.partial hlt (by rw [hempty]; exact hbound)⟩

end Context

end QLisp
