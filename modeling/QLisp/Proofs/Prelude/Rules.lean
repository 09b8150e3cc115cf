import QLisp.Proofs.Prelude.Loaded

/-!
# Rules for the prelude

While functions of the prelude run, the prelude is in force in every scope that they open, since
their parameters are none of its names (`HasPrelude.function`). So their code can be followed by
rules that know the values of these names: one for each builtin that is called, and those for `if`.

A result about all contexts is carried to a machine by `Machine.Yields.of_evaluates`, and by
`Machine.Computes.of_answers` if the evaluation is confined.
-/

set_option autoImplicit false

namespace QLisp

open Interp Eval

/-- A name that is no parameter keeps its value. -/
theorem Invoke.get?_of_bindArguments {table bound : Table Value} {params left : List String}
    {args : List Value} (h : bindArguments table params args = .ok (bound, left)) {name : String}
    (hname : name ∉ params) : bound.get? name = table.get? name := by
  fun_induction bindArguments table params args with
  | case1 table params =>
    obtain ⟨rfl, -⟩ := Prod.mk.inj (Except.ok.inj h)
    rfl
  | case2 table arg args => cases h
  | case3 table arg args rest =>
    obtain ⟨rfl, -⟩ := Prod.mk.inj (Except.ok.inj h)
    have hne : rest ≠ name := fun heq => hname (by simp [heq])
    rw [Table.get?_insert, if_neg hne]
  | case4 table params arg args hparams => cases h
  | case5 table param params arg args hparam ih =>
    have hne : param ≠ name := fun heq => hname (by simp [heq])
    rw [ih h fun hmem => hname (List.mem_cons_of_mem param hmem), Table.get?_insert, if_neg hne]

/-! ## Contexts with the prelude -/

namespace Context

open Prelude

variable {c c' c'' : Context} {lines lines' : List String} {r : Value}

/-- The prelude is in force, and its code may be evaluated. -/
structure HasPrelude (c : Context) : Prop where
  inForce : InForce c.store c.scope
  allowed_eq : ∀ v ∈ code, c.allowed v = true

/-- The function of a name answers arguments with `r` and prints `lines`. -/
def Answers (c : Context) (name : String) (args : List Value) (lines : List String) (r : Value) :
    Prop :=
  ∃ f, c.get? name = some f ∧ c.Applies f args lines r

namespace HasPrelude

/-- Every definition of the prelude holds. -/
theorem holds (h : c.HasPrelude) {d : Definition} (hd : d ∈ script) :
    d.Holds c.store c.scope := by
  obtain ⟨loaded, hload, hretains⟩ := h.inForce.retains
  exact hload.loaded.holds_of_retains hretains hd

/-- Every builtin has its name. -/
theorem builtin (h : c.HasPrelude) (b : Builtin) : c.get? b.name = some (.builtin b) := by
  obtain ⟨loaded, hload, hretains⟩ := h.inForce.retains
  exact hretains.get?_eq _ _ (hload.loaded.builtin b)

/-- The name of the empty list. -/
theorem nil (h : c.HasPrelude) : c.get? "nil" = some (.qexpr []) :=
  h.holds (d := .constant "nil" (.qexpr [])) (by simp [script])

/-- The name of the true value. -/
theorem get?_true (h : c.HasPrelude) : c.get? "true" = some (integer 1) :=
  h.holds (d := .constant "true" (integer 1)) (by simp [script])

/-- A second name for something. -/
theorem get?_copy (h : c.HasPrelude) (name source : String) (hd : .copy name source ∈ script) :
    c.get? name = c.get? source := by
  obtain ⟨v, hsource, hname⟩ := h.holds hd
  exact hname.trans hsource.symm

/-- In a new scope that binds no reserved name, the prelude is there. -/
theorem enter (h : c.HasPrelude) {table : Table Value} (henters : c.Enters table c')
    (hnames : ∀ name ∈ reserved, table.get? name = none) : c'.HasPrelude := by
  have hscope : c'.scope = ⟨c'.scope.table, c.scope.chain⟩ := by rw [← henters.enclosing_eq]
  have hroot : c'.scope.root = root := by
    rw [hscope, Scope.root_within]
    exact h.inForce.root_eq
  refine ⟨h.inForce.mono c'.below hroot henters.store_extends.size_le ?_ ?_, ?_⟩
  · exact fun a ha _ => henters.store_extends.tableAt_eq a ha
  · intro name hname
    have hget := henters.get? name
    rw [hnames name hname, Option.none_or] at hget
    exact hget
  · rw [henters.allowed_eq]
    exact h.allowed_eq

/-- Binding a name that is not reserved, in a table that has come after the prelude. -/
theorem bind (h : c.HasPrelude) {base : Context} (hbase : base.HasPrelude)
    (hnew : base.store.tables.size ≤ c.scope.table) {name : String}
    (hname : name ∉ reserved) (v : Value) : (c.bind name v).HasPrelude := by
  obtain ⟨loaded, hload, hbefore⟩ := hbase.inForce.retains
  obtain ⟨loaded', hload', hretains⟩ := h.inForce.retains
  obtain rfl := hload.unique hload'
  refine ⟨⟨(c.bind name v).below, h.inForce.root_eq, loaded, hload, ?_, ?_, ?_⟩, h.allowed_eq⟩
  · rw [size_bind]
    exact hretains.size_le
  · intro a ha hroot
    have hsize := hbefore.size_le
    rw [tableAt_bind _ _ _ (Nat.lt_of_lt_of_le ha hretains.size_le) (by omega),
      hretains.tableAt_eq a ha hroot]
  · intro other w hw
    have hne : name ≠ other := by
      rintro rfl
      exact hname (hload.loaded.bound name w hw)
    have hget := c.get?_bind name other v
    rw [if_neg hne] at hget
    exact hget.trans (hretains.get?_eq other w hw)

/-- The bodies of the prelude are trusted. -/
theorem trusts (h : c.HasPrelude) (f : Function) : c.Trusts (.sexpr f.body) := by
  intro v hv
  exact h.allowed_eq v (List.mem_flatMap.2 ⟨.function f, function_mem_script f, hv⟩)

/-- The prelude is in force where a body starts whose parameters are none of its names. -/
theorem enterCall (h : c.HasPrelude) {params : List String} (hparams : ∀ p ∈ params, p ∉ reserved)
    {args : List Value} {table : Table Value}
    (hbound : Invoke.bindArguments .empty params args = .ok (table, []))
    (henters : c.Enters table c') : c'.HasPrelude := by
  refine h.enter henters fun name hreserved => ?_
  have hparam : name ∉ params := fun hmem => hparams name hmem hreserved
  rw [Invoke.get?_of_bindArguments hbound hparam]
  rfl

/-- A lambda of a name that gets all its arguments answers what its body gives in the scopes where
it can start. -/
theorem lambda (h : c.HasPrelude) {name : String} {params : List String} {body : List Value}
    (hname : BindsLambda c.store c.scope name params body) (htrust : c.Trusts (.sexpr body))
    (hparams : ∀ p ∈ params, p ∉ reserved) {args : List Value} {table : Table Value}
    (hbound : Invoke.bindArguments .empty params args = .ok (table, []))
    (hbody : ∀ c', c.Enters table c' → c'.HasPrelude →
      ∃ c'', c'.Evaluates (.sexpr body) lines r c'') : c.Answers name args lines r := by
  obtain ⟨captured, hget, hlt, hempty⟩ := hname
  refine ⟨_, hget, Applies.lambda hlt (by rw [hempty]; exact hbound) htrust ?_⟩
  exact fun c' henters => hbody c' henters (h.enterCall hparams hbound henters)

/-- A function of the prelude that gets all its arguments. -/
theorem function (h : c.HasPrelude) (f : Function) {args : List Value} {table : Table Value}
    (hbound : Invoke.bindArguments .empty f.params args = .ok (table, []))
    (hbody : ∀ c', c.Enters table c' → c'.HasPrelude →
      ∃ c'', c'.Evaluates (.sexpr f.body) lines r c'') :
    c.Answers f.name args lines r :=
  h.lambda (h.holds (function_mem_script f)) (h.trusts f) (params_not_reserved f) hbound hbody

/-- The functions of the prelude are the same everywhere. -/
theorem get?_function (h : c.HasPrelude) (h' : c'.HasPrelude) (f : Function) :
    c.get? f.name = c'.get? f.name :=
  h.inForce.get?_eq h'.inForce (List.mem_map.2 ⟨_, function_mem_script f, rfl⟩)

end HasPrelude

/-! ## Code of the prelude -/

/-- A call of a function by its name. -/
theorem Answers.call {name : String} {args : List Value} {v : Value} {vs : List Value}
    (h : c.Answers name (v :: vs) lines' r) (hargs : c.EvaluatesAll args lines (v :: vs) c) :
    c.Evaluates (Prelude.call name args) (lines ++ lines') r c := by
  obtain ⟨f, hf, happly⟩ := h
  exact Evaluates.call hf hargs happly

/-- In `c'`, names have the values that `table` binds them to, and all others those that they have
in `c`. -/
def Overlays (c : Context) (table : Table Value) (c' : Context) : Prop :=
  ∀ name, c'.get? name = (table.get? name).or (c.get? name)

section Overlays

variable {table table' : Table Value} {name : String}

/-- A new scope overlays the one around it. -/
theorem Enters.overlays (h : c.Enters table c') : c.Overlays table c' :=
  h.get?

/-- A name of the table is found in it. -/
theorem Overlays.lookup (h : c.Overlays table c') {v : Value} (hv : table.get? name = some v) :
    c'.get? name = some v := by
  rw [h, hv, Option.some_or]

/-- Any other name is found around it. -/
theorem Overlays.through (h : c.Overlays table c') (hnone : table.get? name = none) :
    c'.get? name = c.get? name := by
  rw [h, hnone, Option.none_or]

/-- The bindings of an inner scope come first. -/
theorem Overlays.trans (h : c.Overlays table c') (h' : c'.Overlays table' c'') :
    c.Overlays ⟨table'.entries ++ table.entries⟩ c'' := by
  intro name
  rw [h', h, ← Option.or_assoc, Table.get?, Table.get?, ← Table.find?_append]
  rfl

/-- A name of the table is found in the new scope. -/
theorem Enters.lookup (h : c.Enters table c') {v : Value} (hv : table.get? name = some v) :
    c'.get? name = some v :=
  h.overlays.lookup hv

end Overlays

namespace HasPrelude

/-- A call of a function of the prelude, whose arguments may lead to another context. -/
theorem callFunction (h : c.HasPrelude) (h' : c'.HasPrelude) (f : Function) {args : List Value}
    {v : Value} {vs : List Value} (hargs : c.EvaluatesAll args lines (v :: vs) c')
    (hanswers : c'.Answers f.name (v :: vs) lines' r) :
    c.Evaluates (call f.name args) (lines ++ lines') r c' := by
  obtain ⟨function, hfunction, happly⟩ := hanswers
  exact Evaluates.call ((h.get?_function h' f).trans hfunction) hargs happly

/-- A call of a builtin without effects. -/
theorem callBuiltin (h : c.HasPrelude) (b : Builtin) {args : List Value} {v : Value}
    {vs : List Value} (hargs : c.EvaluatesAll args lines (v :: vs) c')
    (hresult : ∀ f m, applyBuiltin f c'.scope (v :: vs) b c'.host m = some (.ok r, m)) :
    c.Evaluates (call b.name args) lines r c' := by
  have hcall := Evaluates.call (h.builtin b) hargs (Applies.builtin hresult)
  rwa [List.append_nil] at hcall

variable {a b : Value} {xs ys : List Value}

/-- `head` gives the list of the first item. -/
theorem head (h : c.HasPrelude) (ha : c.Gives a (.qexpr xs)) :
    c.Gives (call "head" [a]) (.qexpr (xs.take 1)) :=
  h.callBuiltin .head (.cons ha .nil) fun _ _ => rfl

/-- `tail` gives the items behind the first. -/
theorem tail (h : c.HasPrelude) (ha : c.Gives a (.qexpr xs)) :
    c.Gives (call "tail" [a]) (.qexpr (xs.drop 1)) :=
  h.callBuiltin .tail (.cons ha .nil) fun _ _ => rfl

/-- `list` gives the list of its arguments. -/
theorem list (h : c.HasPrelude) {args : List Value} {v : Value} {vs : List Value}
    (hargs : c.EvaluatesAll args lines (v :: vs) c') :
    c.Evaluates (call "list" args) lines (.qexpr (v :: vs)) c' :=
  h.callBuiltin .list hargs fun _ _ => rfl

/-- `join` gives the items of two lists. -/
theorem join (h : c.HasPrelude) (ha : c.Evaluates a lines (.qexpr xs) c')
    (hb : c'.Evaluates b lines' (.qexpr ys) c'') :
    c.Evaluates (call "join" [a, b]) (lines ++ lines') (.qexpr (xs ++ ys)) c'' := by
  have hargs := EvaluatesAll.cons ha (.cons hb .nil)
  rw [List.append_nil] at hargs
  refine h.callBuiltin .join hargs fun _ _ => ?_
  have hflatten : [xs, ys].flatten = xs ++ ys := by simp
  rw [← hflatten]
  rfl

/-- `==` gives whether two values are equal. -/
theorem equal (h : c.HasPrelude) {v w : Value} (ha : c.Gives a v) (hb : c.Gives b w) :
    c.Gives (call "==" [a, b]) (.ofBool (v.same w)) :=
  h.callBuiltin .equal (.cons ha (.cons hb .nil)) fun _ _ => rfl

/-- `+` gives the sum of two numbers. -/
theorem add (h : c.HasPrelude) {m n : Decimal} (ha : c.Gives a (.number m))
    (hb : c.Gives b (.number n)) : c.Gives (call "+" [a, b]) (.number (m.add n)) :=
  h.callBuiltin .add (.cons ha (.cons hb .nil)) fun _ _ => rfl

/-- `-` gives the difference of two numbers. -/
theorem subtract (h : c.HasPrelude) {m n : Decimal} (ha : c.Gives a (.number m))
    (hb : c.Gives b (.number n)) : c.Gives (call "-" [a, b]) (.number (m.sub n)) :=
  h.callBuiltin .subtract (.cons ha (.cons hb .nil)) fun _ _ => rfl

/-- `nil` gives the empty list. -/
theorem nilList (h : c.HasPrelude) : c.Gives (.sexpr [.symbol "nil"]) (.qexpr []) :=
  .single (.symbol h.nil)

variable {onTrue onFalse : List Value}

/-- A condition that is a truth value. -/
theorem branch (h : c.HasPrelude) {t : Bool} (ha : c.Gives a (.ofBool t))
    (hbody : c.Evaluates (.sexpr (if t then onTrue else onFalse)) lines r c') :
    c.Evaluates (.sexpr (Prelude.branch a onTrue onFalse)) lines r c' := by
  refine Evaluates.branch (h.builtin .branch) ha ?_
  cases t with
  | false => exact hbody
  | true => exact hbody

/-- For the empty list the first branch is taken. -/
theorem ifNil_nil (h : c.HasPrelude) {l : String} (hl : c.get? l = some (.qexpr []))
    (hbody : c.Evaluates (.sexpr onTrue) lines r c') :
    c.Evaluates (.sexpr (ifNil l onTrue onFalse)) lines r c' :=
  h.branch (t := true) (h.equal (.symbol hl) (.symbol h.nil)) hbody

/-- For any other list the second branch is taken. -/
theorem ifNil_cons (h : c.HasPrelude) {l : String} {x : Value}
    (hl : c.get? l = some (.qexpr (x :: xs))) (hbody : c.Evaluates (.sexpr onFalse) lines r c') :
    c.Evaluates (.sexpr (ifNil l onTrue onFalse)) lines r c' :=
  h.branch (t := false) (h.equal (.symbol hl) (.symbol h.nil)) hbody

end HasPrelude

/-! ## Contexts without confinement -/

/-- Everything may be evaluated, the prelude is in force, and the tables of `s` are there. -/
structure Unconfined (c : Context) (host : Host) (s : Store Value) : Prop extends
    c.HasPrelude where
  host_eq : c.host = host
  allowed_all : ∀ v, c.allowed v = true
  store_extends : s.Extends c.store

namespace Unconfined

variable {host : Host} {s : Store Value}

/-- Where nothing is confined, every value is trusted. -/
theorem trusts_all (h : c.Unconfined host s) (v : Value) : c.Trusts v :=
  fun w _ => h.allowed_all w

/-- A new scope that has the prelude is not confined either. -/
theorem enter (h : c.Unconfined host s) {table : Table Value} (henters : c.Enters table c')
    (h' : c'.HasPrelude) : c'.Unconfined host s where
  toHasPrelude := h'
  host_eq := henters.host_eq.trans h.host_eq
  allowed_all := by
    rw [henters.allowed_eq]
    exact h.allowed_all
  store_extends := h.store_extends.trans henters.store_extends

/-- Binding a name that is not reserved, in a table that has come after a context. -/
theorem bind (h : c.Unconfined host s) {base : Context} (hbase : base.Unconfined host s)
    (hnew : base.store.tables.size ≤ c.scope.table) {name : String}
    (hname : name ∉ reserved) (v : Value) : (c.bind name v).Unconfined host s where
  toHasPrelude := h.toHasPrelude.bind hbase.toHasPrelude hnew hname v
  host_eq := h.host_eq
  allowed_all := h.allowed_all
  store_extends := by
    refine ⟨?_, fun a ha => ?_⟩
    · rw [size_bind]
      exact h.store_extends.size_le
    · have hsize := hbase.store_extends.size_le
      rw [tableAt_bind _ _ _ (Nat.lt_of_lt_of_le ha h.store_extends.size_le) (by omega),
        h.store_extends.tableAt_eq a ha]

/-- A function of the prelude answers what its body evaluates to. -/
theorem function (h : c.Unconfined host s) (f : Function) {args : List Value}
    {table : Table Value} (hbound : Invoke.bindArguments .empty f.params args = .ok (table, []))
    (hbody : ∀ c', c.Enters table c' → c'.Unconfined host s →
      ∃ c'', c'.Evaluates (.sexpr f.body) lines r c'') :
    c.Answers f.name args lines r :=
  h.toHasPrelude.function f hbound fun c' henters h' => hbody c' henters (h.enter henters h')

end Unconfined

end Context

/-! ## Evaluations at a machine -/

open Prelude

namespace Machine

variable {m : Machine} {host : Host} {scope : Scope} {lines : List String} {v r : Value}

/-- The evaluation of a value ends with `r`. It prints `lines` and changes none of the tables there
are. -/
def Yields (m : Machine) (host : Host) (scope : Scope) (v : Value) (lines : List String)
    (r : Value) : Prop :=
  ∃ m', m.Prints lines m' ∧ ∃ n, Settles n (fun depth => evaluate depth scope v) host m (.ok r) m'

/-- A value yields one result, and prints the same lines. -/
theorem Yields.unique {lines' : List String} {r' : Value} (h : m.Yields host scope v lines r)
    (h' : m.Yields host scope v lines' r') : r = r' := by
  obtain ⟨m₁, -, n, hsettles⟩ := h
  obtain ⟨m₂, -, k, hsettles'⟩ := h'
  exact Except.ok.inj (hsettles.unique hsettles').1

/-- A function, called by its name with arguments, has the result `r`. The call prints nothing and
changes none of the tables there are. On the way nothing is evaluated but the call, its name and its
arguments, and the code of the prelude. -/
def Computes (m : Machine) (host : Host) (scope : Scope) (name : String) (args : List Value)
    (r : Value) : Prop :=
  ∃ m', m.Prints [] m' ∧
    (∃ n, Settles n (fun depth => evaluate depth scope (call name args)) host m (.ok r) m') ∧
    ∀ allowed : Value → Bool,
      (∀ v ∈ call name args :: .symbol name :: (args ++ code), allowed v = true) →
      ∃ n, Settles n (fun depth => confined allowed depth scope (call name args)) host m (.ok r) m'

/-- The part of a machine that is seen from a scope. -/
def context (m : Machine) (host : Host) (allowed : Value → Bool) (scope : Scope)
    (hscope : scope.Below m.store.tables.size) : Context :=
  ⟨⟨host, allowed, scope⟩, m.store, hscope⟩

/-- The part that is seen where the prelude is in force, with nothing forbidden. -/
def openContext (m : Machine) (host : Host) (h : InForce m.store scope) : Context :=
  m.context host (fun _ => true) scope h.below

/-- The open context is not confined. -/
theorem unconfined_openContext (m : Machine) (host : Host) (h : InForce m.store scope) :
    (m.openContext host h).Unconfined host m.store :=
  ⟨⟨h, fun _ _ => rfl⟩, rfl, fun _ => rfl, .refl _⟩

/-- What the open context evaluates is yielded. -/
theorem Yields.of_openContext (h : InForce m.store scope)
    (hv : (m.openContext host h).Evaluates v lines r (m.openContext host h)) :
    m.Yields host scope v lines r := by
  have htrust := (m.unconfined_openContext host h).trusts_all v
  obtain ⟨m', hprints, n, hsettles⟩ := (hv htrust).exists_prints (.refl m.store)
  exact ⟨m', hprints, n, settles_evaluate hsettles⟩

/-- What evaluates in every context where the prelude is in force is yielded. -/
theorem Yields.of_evaluates (h : InForce m.store scope)
    (hv : ∀ c : Context, c.Unconfined host m.store → c.Evaluates v lines r c) :
    m.Yields host scope v lines r :=
  .of_openContext h (hv _ (m.unconfined_openContext host h))

section Confined

variable {name : String} {arg : Value} {args : List Value}

/-- A call of a function settles where only what it needs is allowed. -/
theorem exists_settles_confined (h : InForce m.store scope)
    (hfinal : ∀ v ∈ arg :: args, v.isFinal = true)
    (hanswers : ∀ c : Context, c.HasPrelude → c.Answers name (arg :: args) [] r)
    (allowed : Value → Bool) (hallowed : ∀ v ∈ call name (arg :: args) :: .symbol name ::
      (arg :: args ++ code), allowed v = true) :
    ∃ m', m.Prints [] m' ∧ ∃ n, Settles n
      (fun depth => confined allowed depth scope (call name (arg :: args))) host m (.ok r) m' := by
  have hc : (m.context host allowed scope h.below).HasPrelude :=
    ⟨h, fun v hv => hallowed v (by simp [hv])⟩
  obtain ⟨f, hf, happly⟩ := hanswers _ hc
  obtain ⟨m', hprints, n, hsettles⟩ := happly.exists_prints (.refl m.store)
  have hargs : Settles (n + 1) (fun depth => evaluateItems (confined allowed depth) scope
      (arg :: args)) host m (.ok (arg :: args)) m :=
    settles_items_of_isFinal (fun v hv => hallowed v (List.mem_cons_of_mem _ (List.mem_cons_of_mem _
      (List.mem_append_left code hv)))) hfinal
  refine ⟨m', hprints, n + 2, settles_call (hallowed _ (by simp))
    (settles_items_cons (settles_symbol (hallowed _ (by simp)) hf) hargs) ?_⟩
  exact hsettles.mono (Nat.le_succ n)

/-- What a function answers wherever the prelude is, it computes. -/
theorem Computes.of_answers (h : InForce m.store scope)
    (hfinal : ∀ v ∈ arg :: args, v.isFinal = true)
    (hanswers : ∀ c : Context, c.HasPrelude → c.Answers name (arg :: args) [] r) :
    m.Computes host scope name (arg :: args) r := by
  obtain ⟨m', hprints, n, hfree⟩ := exists_settles_confined h hfinal hanswers (fun _ => true)
    fun _ _ => rfl
  refine ⟨m', hprints, ⟨n, settles_evaluate hfree⟩, fun allowed hallowed => ?_⟩
  -- the machine is the same, whatever the evaluation is confined to
  obtain ⟨m'', -, k, hsettles⟩ := exists_settles_confined h hfinal hanswers allowed hallowed
  obtain ⟨-, rfl⟩ := (settles_evaluate hfree).unique (settles_evaluate hsettles)
  exact ⟨k, hsettles⟩

end Confined

end Machine

end QLisp
