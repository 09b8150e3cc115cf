import QLisp.Eval.Supervised

/-!
# What all of the interpreter respects

Much of what is to be said of the interpreter is a property of its computations, or a relation of
several computations that go side by side: that they have the same answers, which tables they
change, what their results are like. If plain outcomes, sequences and the few effects that there are
respect it, then all that is made of them does: programs, builtins, calls of lambdas, and a step of
evaluation.

`Knowledge` is what such a property has to know about scopes and values. A `Simulation` is a
property that is respected by outcomes, sequences and effects, and its theorems go through the
interpreter once for all of them. `Simulation.step` leads from one depth of evaluation to the next
one, and `Simulation.perform` from evaluators to the calls of the interpreter. What is different for
each builtin is one thing only, `Deed.Yields`.
-/

set_option autoImplicit false

namespace QLisp

/-- Whether a value is a result: neither a symbol nor a call that is still to be evaluated. -/
def Value.isFinal : Value → Bool
  | .symbol _ => false
  | .sexpr (_ :: _) => false
  | _ => true

/-- What the interpreter can be called for in a scope. -/
inductive Call where
  | evaluate (v : Value)
  | apply (function : Value) (args : List Value)
  | run (program : Value)
  | runSource (source : String)

namespace Call

/-- Carries out a call, where functions are applied in the given way. -/
def performBy (apply : Applier) (evaluate : Evaluator) (scope : Scope) : Call → Interp Value
  | .evaluate v => evaluate scope v
  | .apply function args => apply scope args function
  | .run program => Program.run evaluate scope program
  | .runSource source => Program.runSource evaluate scope source

/-- Carries out a call with an evaluator. -/
def perform (evaluate : Evaluator) : Scope → Call → Interp Value :=
  performBy (Eval.applyWith evaluate) evaluate

end Call

/-! ## What is known, and what respects it -/

/-- What a deed gets out of its arguments: answers and bound values are results, a list that is
evaluated and the body of a lambda are code, and names are bound in the root only if this may be. -/
def Deed.Yields (Result Code : Value → Prop) (Global : Prop) (args : List Value) : Deed → Prop
  | .answer value => ∀ v, value args = .ok v → Result v
  | .evaluate code => ∀ items, code args = .ok items → Code (.sexpr items)
  | .bind inRoot bindings =>
    (inRoot = true → Global) ∧ ∀ bound, bindings args = .ok bound → ∀ b ∈ bound, Result b.2
  | .capture parts => ∀ params body, parts args = .ok (params, body) → Code (.sexpr body)
  | .print _ | .load _ => True

/-- What is known about scopes and values during an evaluation. A world is a point on its way, and
what is known there stays known in the worlds that grow out of it. -/
structure Knowledge (World : Type) where
  Grows : World → World → Prop
  /-- Code can be evaluated in the scope. -/
  Inside : World → Scope → Prop
  /-- Lambdas can be called from the scope. -/
  Around : World → Scope → Prop
  /-- The value can be evaluated. -/
  Code : World → Value → Prop
  /-- The value can be a result. -/
  Result : World → Value → Prop
  /-- Names can be bound in the root. -/
  Global : Prop
  /-- The builtin can be applied to the arguments. -/
  Allowed : Builtin → List Value → Prop
  grows_refl (w : World) : Grows w w
  grows_trans {w w' w'' : World} : Grows w w' → Grows w' w'' → Grows w w''
  inside_mono {w w' : World} {scope : Scope} : Inside w scope → Grows w w' → Inside w' scope
  around_mono {w w' : World} {scope : Scope} : Around w scope → Grows w w' → Around w' scope
  around_of_inside {w : World} {scope : Scope} : Inside w scope → Around w scope
  code_mono {w w' : World} {v : Value} : Code w v → Grows w w' → Code w' v
  result_mono {w w' : World} {v : Value} : Result w v → Grows w w' → Result w' v
  result_unit (w : World) : Result w .unit
  result_qexpr (w : World) (vs : List Value) : (∀ v ∈ vs, Result w v) → Result w (.qexpr vs)
  result_of_code {w : World} {v : Value} : v.isFinal = true → Code w v → Result w v
  code_of_sexpr {w : World} {items : List Value} : Code w (.sexpr items) → ∀ v ∈ items, Code w v
  code_of_read {w : World} {source : String} {program : Value} :
    Program.read source = .ok program → Code w program
  code_of_lambda {w : World} {params : List String} {body : List Value} {captured : Scope} :
    Result w (.lambda params body captured) → Code w (.sexpr body)
  yields {w : World} {b : Builtin} {args : List Value} : Allowed b args →
    (∀ v ∈ args, Result w v) → b.deed.Yields (Result w) (Code w) Global args

/-- Whatever a deed gets out of its arguments, it is a value. -/
theorem Deed.yields_of_forall {Result Code : Value → Prop} (hresult : ∀ v, Result v)
    (hcode : ∀ v, Code v) (d : Deed) (args : List Value) : d.Yields Result Code True args := by
  cases d with
  | answer value => exact fun v _ => hresult v
  | evaluate code => exact fun items _ => hcode _
  | bind inRoot bindings => exact ⟨fun _ => trivial, fun _ _ b _ => hresult b.2⟩
  | capture parts => exact fun _ body _ => hcode _
  | print line => trivial
  | load path => trivial

/-- The knowledge that a scope has a property, which new scopes inside of it have as well. -/
def Knowledge.ofScopes (P : Scope → Prop) : Knowledge Unit where
  Grows _ _ := True
  Inside _ scope := P scope
  Around _ scope := P scope
  Code _ _ := True
  Result _ _ := True
  Global := True
  Allowed _ _ := True
  grows_refl _ := trivial
  grows_trans _ _ := trivial
  inside_mono h _ := h
  around_mono h _ := h
  around_of_inside h := h
  code_mono h _ := h
  result_mono h _ := h
  result_unit _ := trivial
  result_qexpr _ _ _ := trivial
  result_of_code _ _ := trivial
  code_of_sexpr _ _ _ := trivial
  code_of_read _ := trivial
  code_of_lambda _ := trivial
  yields _ _ := Deed.yields_of_forall (fun _ => trivial) (fun _ => trivial) _ _

/-- No knowledge at all. -/
abbrev Knowledge.none : Knowledge Unit :=
  .ofScopes fun _ => True

/-- A property of computations, one for each index, that go side by side: they start in a world and
have results that are known in the worlds they lead to. -/
structure Simulation {World : Type} (K : Knowledge World) (ι : Type) where
  Runs : World → (ι → Interp Value) → Prop
  ofExcept {w : World} {z : Except EvalError Value} (h : ∀ v, z = .ok v → K.Result w v) :
    Runs w fun _ => Interp.ofExcept z
  bind {w : World} {x : ι → Interp Value} {k : ι → Value → Interp Value} (hx : Runs w x)
    (hk : ∀ w' v, K.Grows w w' → K.Result w' v → Runs w' fun i => k i v) :
    Runs w fun i => x i >>= k i
  mapError {w : World} {x : ι → Interp Value} (g : EvalError → EvalError) (hx : Runs w x) :
    Runs w fun i => (x i).mapError g
  inspectStore {w : World} {α : Type} {f : Store Value → α} {k : ι → α → Interp Value}
    (hk : ∀ w' s, K.Grows w w' → s.All (K.Result w') → Runs w' fun i => k i (f s)) :
    Runs w fun i => Interp.inspectStore f >>= k i
  define {w : World} {scope : Scope} {inRoot : Bool} {bound : List (String × Value)}
    (hscope : K.Inside w scope) (hroot : inRoot = true → K.Global)
    (hbound : ∀ b ∈ bound, K.Result w b.2) :
    Runs w fun _ => Interp.changeStore (·.defineAll (scope.target inRoot) bound)
      >>= fun _ => pure .unit
  printLine (w : World) (line : String) :
    Runs w fun _ => Interp.printLine line >>= fun _ => pure .unit
  readScript {w : World} {path : String} {k : ι → String → Interp Value}
    (hk : ∀ w' source, K.Grows w w' → Runs w' fun i => k i source) :
    Runs w fun i => Interp.readScript path >>= k i
  within {w : World} {scope : Scope} {table : Table Value} {k : ι → Scope → Interp Value}
    (hscope : K.Around w scope) (htable : table.All (K.Result w))
    (hk : ∀ w' inner, K.Grows w w' → K.Inside w' inner → Runs w' fun i => k i inner) :
    Runs w fun i => Interp.newScope (·.within table scope) >>= k i
  child {w : World} {scope : Scope} {body : List Value} (params : List String)
    (hscope : K.Inside w scope) (hbody : K.Code w (.sexpr body)) :
    Runs w fun _ => Interp.newScope (·.child scope)
      >>= fun captured => pure (.lambda params body captured)
  alone {w : World} {table : Table Value} {body : List Value} (params : List String)
    (htable : table.All (K.Result w)) (hbody : K.Code w (.sexpr body)) :
    Runs w fun _ => Interp.newScope (·.alone table)
      >>= fun captured => pure (.lambda params body captured)

namespace Simulation

variable {World ι : Type} {K : Knowledge World} (S : Simulation K ι)

/-- Evaluators whose evaluations of code go side by side. -/
def Respects (f : ι → Evaluator) : Prop :=
  ∀ w scope v, K.Inside w scope → K.Code w v → S.Runs w fun i => f i scope v

variable {S} {w : World} {scope : Scope} {f : ι → Evaluator}

/-- A result is given back. -/
theorem pure {v : Value} (h : K.Result w v) : S.Runs w fun _ => Pure.pure v :=
  S.ofExcept fun _ hv => Except.ok.inj hv ▸ h

/-- An error has no result. -/
theorem fail (e : EvalError) : S.Runs w fun _ => Interp.fail e :=
  S.ofExcept fun _ hv => nomatch hv

/-- What comes after a plain outcome comes only if it is no error. -/
theorem ofExcept_bind {α : Type} {z : Except EvalError α} {k : ι → α → Interp Value}
    (hk : ∀ a, z = .ok a → S.Runs w fun i => k i a) :
    S.Runs w fun i => Interp.ofExcept z >>= k i := by
  cases z with
  | error e => exact fail e
  | ok a => exact hk a rfl

/-! ## Programs -/

/-- Forms are evaluated one after the other. -/
theorem runForms (h : S.Respects f) (hscope : K.Inside w scope) {last : Value}
    (hlast : K.Result w last) {forms : List Value} (hforms : ∀ v ∈ forms, K.Code w v) :
    S.Runs w fun i => Program.runForms (f i) scope last forms := by
  induction forms generalizing w last with
  | nil => exact pure hlast
  | cons form rest ih =>
    rw [List.forall_mem_cons] at hforms
    refine S.bind (S.mapError _ (h w scope form hscope hforms.1)) fun w' result hgrows hresult => ?_
    exact ih (K.inside_mono hscope hgrows) hresult fun v hv => K.code_mono (hforms.2 v hv) hgrows

/-- A program runs its forms. -/
theorem run (h : S.Respects f) (hscope : K.Inside w scope) {program : Value}
    (hprogram : K.Code w program) : S.Runs w fun i => Program.run (f i) scope program := by
  cases program with
  | sexpr forms => exact runForms h hscope (K.result_unit w) (K.code_of_sexpr hprogram)
  | _ => exact h w scope _ hscope hprogram

/-- What is read from a source is a program. -/
theorem runSource (h : S.Respects f) (hscope : K.Inside w scope) (source : String) :
    S.Runs w fun i => Program.runSource (f i) scope source :=
  ofExcept_bind fun _ hread => run h hscope (K.code_of_read hread)

/-! ## Applications -/

/-- A lambda that gets all its arguments evaluates its body in a new scope; one that gets fewer
makes another lambda. -/
theorem invoke (h : S.Respects f) (hscope : K.Around w scope) (params : List String)
    {body : List Value} (hbody : K.Code w (.sexpr body)) (captured : Scope) {args : List Value}
    (hargs : ∀ v ∈ args, K.Result w v) :
    S.Runs w fun i => Invoke.invoke (f i) params body captured args scope := by
  refine S.inspectStore fun w' s hgrows hs => ?_
  have hargs : ∀ v ∈ args, K.Result w' v := fun v hv => K.result_mono (hargs v hv) hgrows
  have htables : ∀ table left, Invoke.bindArguments (s.tableAt captured.table) params args
      = .ok (table, left) → table.All (K.Result w') :=
    fun _ _ => Invoke.all_bindArguments (K.result_qexpr w') (hs captured.table) hargs
  generalize Invoke.bindArguments (s.tableAt captured.table) params args = bound at htables
  have hbody : K.Code w' (.sexpr body) := K.code_mono hbody hgrows
  rcases bound with fault | ⟨table, left⟩
  · cases fault <;> exact fail _
  · have htable := htables table left rfl
    cases left with
    | nil =>
      refine S.within (K.around_mono hscope hgrows) htable fun w'' inner hgrows' hinner => ?_
      exact h w'' inner _ hinner (K.code_mono hbody hgrows')
    | cons param left => exact S.alone _ htable hbody

/-- A deed does to its arguments what it says, if what it gets out of them is known. -/
theorem perform (h : S.Respects f) (hscope : K.Inside w scope) {args : List Value} {d : Deed}
    (hd : d.Yields (K.Result w) (K.Code w) K.Global args) :
    S.Runs w fun i => d.perform (f i) scope args := by
  cases d with
  | answer value => exact S.ofExcept hd
  | evaluate code => exact ofExcept_bind fun items hitems => h w scope _ hscope (hd items hitems)
  | bind inRoot bindings =>
    exact ofExcept_bind fun bound hbound => S.define hscope hd.1 (hd.2 bound hbound)
  | capture parts =>
    exact ofExcept_bind fun (params, body) hparts => S.child params hscope (hd params body hparts)
  | print line => exact S.printLine w _
  | load path =>
    refine ofExcept_bind fun path _ => S.readScript fun w' source hgrows => ?_
    have hrun := runSource h (K.inside_mono hscope hgrows) source
    exact S.bind hrun fun w'' _ _ _ => pure (K.result_unit w'')

/-- What is applied is a builtin that may be, a lambda with a body that is code, or no function. -/
theorem applyWith (h : S.Respects f) (hscope : K.Inside w scope) {args : List Value}
    (hargs : ∀ v ∈ args, K.Result w v) {function : Value}
    (hallowed : ∀ b, function = .builtin b → K.Allowed b args)
    (hbody : ∀ params body captured, function = .lambda params body captured →
      K.Code w (.sexpr body)) :
    S.Runs w fun i => Eval.applyWith (f i) scope args function := by
  cases function with
  | builtin b => exact perform h hscope (K.yields (hallowed b rfl) hargs)
  | lambda params body captured =>
    exact invoke h (K.around_of_inside hscope) params (hbody _ _ _ rfl) captured hargs
  | _ => exact fail _

/-! ## Evaluation -/

/-- Items are evaluated one after the other, and something is done with their values. -/
theorem evaluateItems_bind (h : S.Respects f) (hscope : K.Inside w scope) {items : List Value}
    (hitems : ∀ v ∈ items, K.Code w v) {k : ι → List Value → Interp Value}
    (hk : ∀ w' values, K.Grows w w' → (∀ v ∈ values, K.Result w' v) →
      S.Runs w' fun i => k i values) :
    S.Runs w fun i => Eval.evaluateItems (f i) scope items >>= k i := by
  induction items generalizing w k with
  | nil => exact hk w [] (K.grows_refl w) nofun
  | cons item items ih =>
    rw [List.forall_mem_cons] at hitems
    simp only [Eval.evaluateItems, Interp.bind_assoc]
    refine S.bind (h w scope item hscope hitems.1) fun w₁ value hgrows hvalue => ?_
    refine ih (K.inside_mono hscope hgrows)
      (fun v hv => K.code_mono (hitems.2 v hv) hgrows) fun w₂ values hgrows' hvalues => ?_
    refine hk w₂ (value :: values) (K.grows_trans hgrows hgrows') ?_
    exact List.forall_mem_cons.2 ⟨K.result_mono hvalue hgrows', hvalues⟩

/-- The value of a symbol is found in a table. -/
theorem lookup (w : World) (scope : Scope) (name : String) :
    S.Runs w fun _ => Eval.lookup scope name := by
  refine S.inspectStore fun w' s _ hs => ?_
  cases hget : s.get? scope name with
  | none => exact fail _
  | some v => exact pure (hs.get? hget)

variable {apply : ι → Applier}

/-- One step of evaluation goes side by side if the evaluations inside and the applications of
functions do. -/
theorem step (h : S.Respects f)
    (happly : ∀ w scope function args, K.Inside w scope → K.Result w function →
      (∀ v ∈ args, K.Result w v) → S.Runs w fun i => apply i scope args function) :
    S.Respects fun i => Eval.step (apply i) (f i) := by
  intro w scope v hscope hv
  cases v with
  | symbol name => exact lookup w scope name
  | sexpr items =>
    refine evaluateItems_bind h hscope (K.code_of_sexpr hv) fun w' values hgrows hvalues => ?_
    rcases values with _ | ⟨function, _ | ⟨arg, args⟩⟩
    · exact pure (K.result_unit w')
    · exact pure (hvalues function List.mem_cons_self)
    · rw [List.forall_mem_cons] at hvalues
      exact happly w' scope function _ (K.inside_mono hscope hgrows) hvalues.1 hvalues.2
  | _ => exact pure (K.result_of_code rfl hv)

/-- A call of the interpreter goes side by side if the evaluations and the application do. -/
theorem performBy (apply : ι → Applier) (h : S.Respects f) (hscope : K.Inside w scope) {call : Call}
    (hevaluate : ∀ v, call = .evaluate v → K.Code w v)
    (hrun : ∀ program, call = .run program → K.Code w program)
    (happly : ∀ function args, call = .apply function args →
      S.Runs w fun i => apply i scope args function) :
    S.Runs w fun i => call.performBy (apply i) (f i) scope := by
  cases call with
  | evaluate v => exact h w scope v hscope (hevaluate v rfl)
  | apply function args => exact happly function args rfl
  | run program => exact run h hscope (hrun program rfl)
  | runSource source => exact runSource h hscope source

end Simulation

end QLisp
