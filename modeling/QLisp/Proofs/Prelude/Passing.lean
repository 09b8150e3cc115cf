import QLisp.Proofs.Prelude.Rules
import QLisp.Proofs.TailCall

/-!
# Passing arguments on

`unpack` calls a function with the items of a list, `pack` with the list of its own arguments. In
both of them this call is the last thing to be done, so they end as it does, whatever the function
is (`Passing.handsOn_call`). With too few arguments they are answered with a lambda that holds the
function. Called in its turn from a scope of the other one, where `f` is this lambda, it still
passes on to the function that it holds (`Passing.handsOn_inverse`).

The call comes from another scope than the call of `unpack` or `pack`, and in a machine that has
more tables. That this makes no difference is a matter of the function, and of what is observed of
its end (`SiteIndependent`).

The statement is `Prelude.InForce.passes_arguments`.
-/

set_option autoImplicit false

namespace QLisp

open Interp Eval Context

namespace Machine

variable (m : Machine) (host : Host) (scope : Scope)

/-- The evaluation of `v` ends with a result or an error, in a machine, that satisfy `P`. -/
def EvaluationEnds (v : Value) (P : Except EvalError Value → Machine → Prop) : Prop :=
  Ends (fun depth => evaluate depth scope v) host m P

/-- The application of `f` ends with a result or an error, in a machine, that satisfy `P`. -/
def CallEnds (f : Value) (args : List Value) (P : Except EvalError Value → Machine → Prop) : Prop :=
  Ends (fun depth => applyWith (evaluate depth) scope args f) host m P

end Machine

namespace Prelude

variable {m m' : Machine} {host : Host} {scope : Scope} {x y : Nat → Interp Value}
  {f g v : Value} {args as vs : List Value} {P : Except EvalError Value → Machine → Prop}

/-- As far as `P` tells, a call does not depend on its place: from every scope where the prelude is
in force, in every machine that has new tables beside those of `m`, it ends as it does here. -/
def SiteIndependent (m : Machine) (host : Host) (scope : Scope) (f : Value) (args : List Value)
    (P : Except EvalError Value → Machine → Prop) : Prop :=
  ∀ later scope', m.Extends later → InForce later.store scope' →
    (later.CallEnds host scope' f args P ↔ m.CallEnds host scope f args P)

/-! ## Computations that end with a call -/

/-- Started in `m`, the computation goes on as a call of `f`, from a scope where the prelude is in
force and in a machine that has new tables beside those of `m`. -/
def HandsOn (host : Host) (m : Machine) (x : Nat → Interp Value) (f : Value) (args : List Value) :
    Prop :=
  ∃ later scope, m.Extends later ∧ InForce later.store scope ∧
    Becomes host x m (fun depth => applyWith (evaluate depth) scope args f) later

namespace HandsOn

/-- What becomes a computation that hands on hands on itself. -/
theorem of_becomes (hx : Becomes host x m y m') (hextends : m.Extends m')
    (hy : HandsOn host m' y f args) : HandsOn host m x f args := by
  obtain ⟨later, scope, hlater, hforce, hbecomes⟩ := hy
  exact ⟨later, scope, hextends.trans hlater, hforce, hx.trans hbecomes⟩

/-- The function to which the call goes hands it on to another one. -/
theorem trans (hx : HandsOn host m x g as)
    (hg : ∀ later scope, m.Extends later → InForce later.store scope →
      HandsOn host later (fun depth => applyWith (evaluate depth) scope as g) f args) :
    HandsOn host m x f args := by
  obtain ⟨later, scope, hlater, hforce, hbecomes⟩ := hx
  exact .of_becomes hbecomes hlater (hg later scope hlater hforce)

/-- What hands on a call ends as the call does. -/
theorem ends_iff (hx : HandsOn host m x f args) (hf : SiteIndependent m host scope f args P) :
    Ends x host m P ↔ m.CallEnds host scope f args P := by
  obtain ⟨later, scope', hlater, hforce, hbecomes⟩ := hx
  exact (hbecomes.ends_iff P).trans (hf later scope' hlater hforce)

end HandsOn

/-! ## The two ways of passing arguments on -/

/-- The items of a list are passed on as arguments, or the arguments as one list. -/
inductive Passing where
  | unpack
  | pack

namespace Passing

/-- The function of the prelude. -/
def function : Passing → Function
  | unpack => .unpack
  | pack => .pack

/-- The names under which it is bound. -/
def names : Passing → List String
  | unpack => ["unpack", "curry"]
  | pack => ["pack", "uncurry"]

/-- The other way. -/
def inverse : Passing → Passing
  | unpack => pack
  | pack => unpack

/-- The arguments beside the function: the list, or its items. They are passed on as the arguments
of the other way. -/
def arguments : Passing → List Value → List Value
  | unpack, vs => [.qexpr vs]
  | pack, vs => vs

/-- The parameters for them. -/
def left : Passing → List String
  | unpack => ["l"]
  | pack => ["&", "xs"]

/-- The bindings of the body. -/
def table : Passing → Value → List Value → Table Value
  | unpack, f, vs => ⟨[("f", f), ("l", .qexpr vs)]⟩
  | pack, f, vs => ⟨[("f", f), ("xs", .qexpr vs)]⟩

variable (p : Passing)

/-- Passing arguments the other way twice is passing them as they are. -/
theorem arguments_inverse_inverse : p.inverse.inverse.arguments vs = p.arguments vs := by
  cases p <;> rfl

/-- The first argument is the function. -/
theorem bindArguments_function :
    Invoke.bindArguments .empty p.function.params [f] = .ok (⟨[("f", f)]⟩, p.left) := by
  cases p <;> rfl

/-- The arguments that follow are those of the function. -/
theorem bindArguments_left :
    Invoke.bindArguments ⟨[("f", f)]⟩ p.left (p.arguments (v :: vs))
      = .ok (p.table f (v :: vs), []) := by
  cases p <;> rfl

/-- The function and its arguments can be given at once. -/
theorem bindArguments_all :
    Invoke.bindArguments .empty p.function.params (f :: p.arguments (v :: vs))
      = .ok (p.table f (v :: vs), []) := by
  cases p <;> rfl

/-- The bindings of the body are none of the names of the prelude. -/
theorem get?_table {name : String} (hname : name ∈ reserved) :
    (p.table f (v :: vs)).get? name = none := by
  have hparam : name ∉ p.function.params :=
    fun hmem => params_not_reserved p.function name hmem hname
  exact Invoke.get?_of_bindArguments p.bindArguments_all hparam

/-- Under each of its names it is bound to a lambda that holds nothing. -/
theorem bindsLambda (h : InForce m.store scope) {name : String} (hname : name ∈ p.names) :
    BindsLambda m.store scope name p.function.params p.function.body := by
  have hc := (m.unconfined_openContext (fun _ => .input) h).toHasPrelude
  have hfunction : BindsLambda m.store scope p.function.name p.function.params p.function.body :=
    hc.holds (function_mem_script p.function)
  obtain ⟨captured, hget, htable⟩ := hfunction
  refine ⟨captured, Eq.trans ?_ hget, htable⟩
  cases p with
  | unpack =>
    rcases List.mem_pair.1 hname with rfl | rfl
    · rfl
    · exact hc.get?_copy "curry" "unpack" (by simp [script])
  | pack =>
    rcases List.mem_pair.1 hname with rfl | rfl
    · rfl
    · exact hc.get?_copy "uncurry" "pack" (by simp [script])

/-- Final values are passed as final arguments. -/
theorem isFinal_arguments (hvs : ∀ w ∈ vs, w.isFinal = true) :
    ∀ w ∈ p.arguments vs, w.isFinal = true := by
  cases p with
  | unpack => simp [arguments, Value.isFinal]
  | pack => exact hvs

/-! ### Their calls -/

/-- The body ends with the call of `f`. -/
theorem becomes_call (h : InForce m.store scope)
    (hget : ∀ name w, (p.table f (v :: vs)).get? name = some w → m.store.get? scope name = some w)
    (hfinal : ∀ w ∈ f :: v :: vs, w.isFinal = true) :
    Becomes host (fun depth => evaluate depth scope (.sexpr p.function.body)) m
      (fun depth => applyWith (evaluate depth) scope (p.inverse.arguments (v :: vs)) f) m := by
  have hc := (m.unconfined_openContext host h).toHasPrelude
  have hf : m.Returns host scope (.symbol "f") f m := by
    refine .symbol (hget "f" f ?_)
    cases p <;> rfl
  cases p with
  | unpack =>
    have hl : m.Returns host scope (.symbol "l") (.qexpr (v :: vs)) m := .symbol (hget "l" _ rfl)
    have hlist : m.Returns host scope (call "list" [.symbol "f"]) (.qexpr [f]) m :=
      (Machine.ReturnsAll.cons (.symbol (hc.builtin .list)) (.cons hf .nil)).returns fun _ => rfl
    have hjoin : m.Returns host scope (call "join" [call "list" [.symbol "f"], .symbol "l"])
        (.qexpr (f :: v :: vs)) m := by
      refine (Machine.ReturnsAll.cons (.symbol (hc.builtin .join))
        (.cons hlist (.cons hl .nil))).returns fun _ => ?_
      have hflatten : [[f], v :: vs].flatten = f :: v :: vs := by simp
      rw [← hflatten]
      rfl
    have heval := (Machine.ReturnsAll.cons (.symbol (hc.builtin .evaluate))
      (.cons hjoin .nil)).becomes
    exact (heval.trans (Machine.becomes_code _)).trans (Machine.ReturnsAll.final hfinal).becomes
  | pack =>
    exact (Machine.ReturnsAll.cons hf (.cons (.symbol (hget "xs" _ rfl)) .nil)).becomes

/-- A call of the lambda hands on to `f`, be it the one of the prelude or one that holds `f`. -/
theorem handsOn_apply (h : InForce m.store scope) {params : List String} {captured : Scope}
    (hbound : Invoke.bindArguments (m.store.tableAt captured.table) params args
      = .ok (p.table f (v :: vs), [])) (hfinal : ∀ w ∈ f :: v :: vs, w.isFinal = true) :
    HandsOn host m
      (fun depth => applyWith (evaluate depth) scope args (.lambda params p.function.body captured))
      f (p.inverse.arguments (v :: vs)) := by
  let c := m.openContext host h
  have hc := (m.unconfined_openContext host h).toHasPrelude
  have henters := enters_inside (c := c) (.refl m.store) (p.table f (v :: vs))
  have hforce := (hc.enter henters fun name hname => p.get?_table hname).inForce
  refine ⟨m.alloc (p.table f (v :: vs)), ⟨m.store.tables.size, scope.chain⟩,
    m.extends_alloc _, hforce, (Machine.becomes_body hbound).trans ?_⟩
  exact p.becomes_call hforce (fun name w hw => henters.lookup hw) hfinal

/-- A call by name goes on as the application of the lambda of the prelude. -/
theorem becomes_apply (h : InForce m.store scope) {name : String} (hname : name ∈ p.names)
    {code : Value} (hcode : m.Returns host scope code g m') (hextends : m.Extends m')
    (hvs : ∀ w ∈ v :: vs, w.isFinal = true) :
    ∃ captured, m'.store.tableAt captured.table = .empty ∧
      Becomes host
        (fun depth => evaluate depth scope (call name (code :: p.arguments (v :: vs)))) m
        (fun depth => applyWith (evaluate depth) scope (g :: p.arguments (v :: vs))
          (.lambda p.function.params p.function.body captured)) m' := by
  obtain ⟨captured, hget, hlt, hempty⟩ := p.bindsLambda h hname
  refine ⟨captured, (hextends.tableAt_eq _ hlt).trans hempty, ?_⟩
  have hitems : m.ReturnsAll host scope (.symbol name :: code :: p.arguments (v :: vs))
      (.lambda p.function.params p.function.body captured :: g :: p.arguments (v :: vs)) m' :=
    .cons (.symbol hget) (.cons hcode (.final (p.isFinal_arguments hvs)))
  exact hitems.becomes

/-- A call by name hands on to the function. -/
theorem handsOn_call (h : InForce m.store scope) {name : String} (hname : name ∈ p.names)
    (hfinal : ∀ w ∈ f :: v :: vs, w.isFinal = true) :
    HandsOn host m (fun depth => evaluate depth scope (call name (f :: p.arguments (v :: vs)))) f
      (p.inverse.arguments (v :: vs)) := by
  obtain ⟨hf, hvs⟩ := List.forall_mem_cons.1 hfinal
  obtain ⟨captured, hempty, hbecomes⟩ := p.becomes_apply h hname (.final hf) (.refl m) hvs
  refine .of_becomes hbecomes (.refl m) (p.handsOn_apply h ?_ hfinal)
  rw [hempty]
  exact p.bindArguments_all

/-- A call with the function alone is answered with a lambda that holds it. -/
theorem returns_partial (h : InForce m.store scope) (host : Host) {name : String}
    (hname : name ∈ p.names) (hf : f.isFinal = true) :
    ∃ captured m', m.Extends m' ∧ captured.table < m'.store.tables.size ∧
      m'.store.tableAt captured.table = ⟨[("f", f)]⟩ ∧
      m.Returns host scope (call name [f]) (.lambda p.left p.function.body captured) m' := by
  obtain ⟨captured, hget, hlt, hempty⟩ := p.bindsLambda h hname
  have hbound : Invoke.bindArguments (m.store.tableAt captured.table) p.function.params [f]
      = .ok (⟨[("f", f)]⟩, p.left) := by
    rw [hempty]
    exact p.bindArguments_function
  have hleft : p.left ≠ [] := by cases p <;> simp [left]
  refine ⟨⟨m.store.tables.size, []⟩, _, m.extends_alloc ⟨[("f", f)]⟩, ?_,
    Store.tableAt_alloc_self _ _, ?_⟩
  · rw [Store.size_alloc]
    exact Nat.lt_succ_self _
  · exact (Machine.ReturnsAll.cons (.symbol hget) (.cons (.final hf) .nil)).returns fun depth =>
      Invoke.invoke_of_bound (evaluate depth) host m p.function.body captured scope hbound hleft

/-- One way undoes the other one: the lambda that is passed on to gets what it makes of the
arguments of the other way, and passes them on to the function that it holds as they were. -/
theorem handsOn_inverse (h : InForce m.store scope) {name inverse : String} (hname : name ∈ p.names)
    (hinverse : inverse ∈ p.inverse.names) (hfinal : ∀ w ∈ f :: v :: vs, w.isFinal = true) :
    HandsOn host m
      (fun depth => evaluate depth scope (call name (call inverse [f] :: p.arguments (v :: vs)))) f
      (p.arguments (v :: vs)) := by
  obtain ⟨hf, hvs⟩ := List.forall_mem_cons.1 hfinal
  obtain ⟨held, m', hextends, hlt, htable, hreturns⟩ :=
    p.inverse.returns_partial h host hinverse hf
  obtain ⟨captured, hempty, hbecomes⟩ := p.becomes_apply h hname hreturns hextends hvs
  have hforce := h.of_extends hextends.store
  have hlambda : ∀ w ∈ .lambda p.inverse.left p.inverse.function.body held :: v :: vs,
      w.isFinal = true := List.forall_mem_cons.2 ⟨rfl, hvs⟩
  refine .of_becomes hbecomes hextends
    ((p.handsOn_apply hforce (by rw [hempty]; exact p.bindArguments_all) hlambda).trans
      fun later scope' hlater hforce' => ?_)
  -- the table that holds `f` is still there where the lambda is called
  have hheld : later.store.tableAt held.table = ⟨[("f", f)]⟩ :=
    (hlater.tableAt_eq _ hlt).trans htable
  have hbound : Invoke.bindArguments (later.store.tableAt held.table) p.inverse.left
      (p.inverse.arguments (v :: vs)) = .ok (p.inverse.table f (v :: vs), []) := by
    rw [hheld]
    exact p.inverse.bindArguments_left
  rw [← p.arguments_inverse_inverse]
  exact p.inverse.handsOn_apply hforce' hbound hfinal

end Passing

/-! ## At a machine -/

/-- Where the prelude is in force, for a function and one final value or more: `unpack` with the
list of the values ends as the call of the function with these values does, and `pack` with the
values as the call with the list of them. What the one makes of a function is turned back by the
other one. This is so for whatever is observed of the end, be it a result or an error, for which the
call of the function does not depend on its place; and none of the two ends if the other does
not. -/
theorem InForce.passes_arguments (h : InForce m.store scope) (host : Host)
    (hfinal : ∀ w ∈ f :: v :: vs, w.isFinal = true)
    (P : Except EvalError Value → Machine → Prop) :
    (SiteIndependent m host scope f (v :: vs) P →
      ∀ unpack ∈ ["unpack", "curry"], ∀ pack ∈ ["pack", "uncurry"],
        (m.EvaluationEnds host scope (call unpack [f, .qexpr (v :: vs)]) P
          ↔ m.CallEnds host scope f (v :: vs) P)
        ∧ (m.EvaluationEnds host scope (call pack (call unpack [f] :: v :: vs)) P
          ↔ m.CallEnds host scope f (v :: vs) P))
    ∧ (SiteIndependent m host scope f [.qexpr (v :: vs)] P →
      ∀ unpack ∈ ["unpack", "curry"], ∀ pack ∈ ["pack", "uncurry"],
        (m.EvaluationEnds host scope (call pack (f :: v :: vs)) P
          ↔ m.CallEnds host scope f [.qexpr (v :: vs)] P)
        ∧ (m.EvaluationEnds host scope (call unpack [call pack [f], .qexpr (v :: vs)]) P
          ↔ m.CallEnds host scope f [.qexpr (v :: vs)] P)) := by
  constructor
  · intro hf unpack hunpack pack hpack
    exact ⟨(Passing.unpack.handsOn_call h hunpack hfinal).ends_iff hf,
      (Passing.pack.handsOn_inverse h hpack hunpack hfinal).ends_iff hf⟩
  · intro hf unpack hunpack pack hpack
    exact ⟨(Passing.pack.handsOn_call h hpack hfinal).ends_iff hf,
      (Passing.unpack.handsOn_inverse h hunpack hpack hfinal).ends_iff hf⟩

/-- The end of a call that has printed a line. -/
def HasPrinted (m : Machine) (line : String) (outcome : Except EvalError Value) (m' : Machine) :
    Prop :=
  outcome = .ok .unit ∧ m'.printed = m.printed.push line

/-- A function with an effect, which tells two arguments from a list of two items, and an error. -/
theorem InForce.passes_arguments_print :
    ∃ m : Machine, InForce m.store root ∧ ∀ host : Host,
      m.EvaluationEnds host root
          (call "curry" [.builtin .print, .qexpr [integer 1, integer 2]]) (HasPrinted m "1, 2")
      ∧ m.EvaluationEnds host root
          (call "pack" [call "unpack" [.builtin .print], integer 1, integer 2])
          (HasPrinted m "1, 2")
      ∧ m.EvaluationEnds host root
          (call "uncurry" [.builtin .print, integer 1, integer 2]) (HasPrinted m "{1 2}")
      ∧ m.EvaluationEnds host root
          (call "unpack" [call "pack" [.builtin .print], .qexpr [integer 1, integer 2]])
          (HasPrinted m "{1 2}")
      ∧ m.EvaluationEnds host root
          (call "unpack" [.builtin .divide, .qexpr [integer 1, integer 0]])
          (fun outcome _ => outcome = .error .divisionByZero) := by
  obtain ⟨m, hm⟩ := exists_isLoaded
  have hforce := InForce.of_isLoaded hm
  refine ⟨m, hforce, fun host => ?_⟩
  have hprint (args : List Value) (later : Machine) (scope : Scope)
      (hprinted : later.printed = m.printed) : later.CallEnds host scope (.builtin .print) args
        (HasPrinted m (Primitive.printedLine args)) := by
    refine ⟨.ok .unit, ⟨later.store, later.printed.push (Primitive.printedLine args),
      later.requests, later.input⟩, ⟨rfl, ?_⟩, 0, Settles.of_forall fun _ => rfl⟩
    rw [hprinted]
  have hsame (args : List Value) : SiteIndependent m host root (.builtin .print) args
      (HasPrinted m (Primitive.printedLine args)) := fun later scope hlater _ =>
    iff_of_true (hprint args later scope hlater.printed_eq) (hprint args m root rfl)
  have hdivide (later : Machine) (scope : Scope) : later.CallEnds host scope (.builtin .divide)
      [integer 1, integer 0] (fun outcome _ => outcome = .error .divisionByZero) :=
    ⟨_, later, rfl, 0, Settles.of_forall fun _ => rfl⟩
  have hnumbers : ∀ w ∈ [.builtin .print, integer 1, integer 2], w.isFinal = true := by
    simp [Value.isFinal]
  have hzero : ∀ w ∈ [.builtin .divide, integer 1, integer 0], w.isFinal = true := by
    simp [Value.isFinal]
  obtain ⟨hitems, -⟩ := passes_arguments hforce host hnumbers (HasPrinted m "1, 2")
  obtain ⟨-, hlist⟩ := passes_arguments hforce host hnumbers (HasPrinted m "{1 2}")
  obtain ⟨herror, -⟩ := passes_arguments hforce host hzero fun outcome _ =>
    outcome = .error .divisionByZero
  have hsites : SiteIndependent m host root (.builtin .divide) [integer 1, integer 0]
      fun outcome _ => outcome = .error .divisionByZero := fun later scope _ _ =>
    iff_of_true (hdivide later scope) (hdivide m root)
  refine ⟨?_, ?_, ?_, ?_, ?_⟩
  · exact (hitems (hsame _) "curry" (by simp) "pack" (by simp)).1.2 (hprint _ m root rfl)
  · exact (hitems (hsame _) "unpack" (by simp) "pack" (by simp)).2.2 (hprint _ m root rfl)
  · exact (hlist (hsame _) "unpack" (by simp) "uncurry" (by simp)).1.2 (hprint _ m root rfl)
  · exact (hlist (hsame _) "unpack" (by simp) "pack" (by simp)).2.2 (hprint _ m root rfl)
  · exact (herror hsites "unpack" (by simp) "pack" (by simp)).1.2 (hdivide m root)

end Prelude

end QLisp
