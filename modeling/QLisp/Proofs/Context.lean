import QLisp.Proofs.Invocation
import QLisp.Proofs.Settling
import QLisp.Proofs.Sharing

/-!
# Rules for evaluating code

To follow code through an evaluation it is enough to know a part of the machine: the tables that
are in reach, while any number of other tables may have been added since. A `Context` is such a part
with a scope in it. What is known there stays known in every store that has its tables, so a rule
for a call can use what is known before the arguments are evaluated after it as well, and no machine
has to be named.

`Context.Leads` says of a computation that wherever the context holds it settles with one result,
prints some lines, changes of the tables that were there at most the one of its own scope, and leads
to a context. `Evaluates`, `EvaluatesAll` and `Applies` say it of a value, of several values and of
a function with its arguments. There is one rule for each form of code: symbols, final values,
calls, the two builtins that evaluate a list as code, `=`, and the call of a lambda. The last one is
`Applies.lambda`: the body is judged in every context that comes from the caller's by entering a new
scope.
-/

set_option autoImplicit false

namespace QLisp

/-! ## Stores and machines that go on -/

/-- The store `t` has the tables of the store `s`. -/
structure Store.Extends (s t : Store Value) : Prop where
  size_le : s.tables.size ≤ t.tables.size
  tableAt_eq : ∀ a, a < s.tables.size → t.tableAt a = s.tableAt a

namespace Store.Extends

variable {s t u : Store Value}

/-- A store extends itself. -/
theorem refl (s : Store Value) : s.Extends s :=
  ⟨Nat.le_refl _, fun _ _ => rfl⟩

/-- Extensions can be extended. -/
theorem trans (hst : s.Extends t) (htu : t.Extends u) : s.Extends u := by
  refine ⟨Nat.le_trans hst.size_le htu.size_le, fun a ha => ?_⟩
  rw [htu.tableAt_eq a (Nat.lt_of_lt_of_le ha hst.size_le), hst.tableAt_eq a ha]

/-- A new table extends a store. -/
theorem alloc (s : Store Value) (table : Table Value) : s.Extends (s.alloc table).1 := by
  refine ⟨?_, fun a ha => tableAt_alloc_of_lt s table a ha⟩
  rw [size_alloc]
  exact Nat.le_succ _

/-- Names keep their values in the scopes there are. -/
theorem get? (h : s.Extends t) {scope : Scope} (hscope : scope.Below s.tables.size)
    (name : String) : t.get? scope name = s.get? scope name := by
  unfold Scope.Below at hscope
  unfold Store.get?
  generalize scope.chain = chain at hscope
  induction chain with
  | nil => rfl
  | cons a chain ih =>
    have hrest := ih fun b hb => hscope b (List.mem_cons_of_mem a hb)
    rw [List.findSome?_cons, List.findSome?_cons, hrest,
      h.tableAt_eq a (hscope a List.mem_cons_self)]

/-- In a scope inside of another one, names have the values of its own table first. -/
theorem get?_inside (h : s.Extends t) {scope inner : Scope} (hscope : scope.Below s.tables.size)
    (hinner : inner.enclosing = scope.chain) (name : String) :
    t.get? inner name = ((t.tableAt inner.table).get? name).or (s.get? scope name) := by
  rw [← h.get? hscope, Store.get?, Store.get?, Scope.chain, hinner, List.findSome?_cons]
  cases (t.tableAt inner.table).get? name <;> rfl

end Store.Extends

/-- A definition in a scope is seen in this scope, and other names keep their values. -/
theorem Store.get?_define {s : Store Value} {scope : Scope} (h : scope.table < s.tables.size)
    (name other : String) (v : Value) :
    (s.define scope name v).get? scope other
      = if name = other then some v else s.get? scope other := by
  obtain ⟨hseen, hunseen⟩ := Store.defined_define h name v scope
  split
  · next heq =>
    subst heq
    exact hseen ⟨[], scope.enclosing, rfl, by simp⟩
  · next hne => exact hunseen other fun hother => hne hother.1.symm

/-- On the way from the machine `m` to `m'`, `lines` are printed, and of the tables of `m` at most
those change whose addresses satisfy `may`. -/
structure Machine.Continues (may : Nat → Prop) (lines : List String) (m m' : Machine) : Prop where
  size_le : m.store.tables.size ≤ m'.store.tables.size
  tableAt_eq : ∀ a, a < m.store.tables.size → ¬ may a → m'.store.tableAt a = m.store.tableAt a
  printed_eq : m'.printed = m.printed ++ lines.toArray

/-- On the way from the machine `m` to `m'`, `lines` are printed, and none of the tables of `m`
changes. -/
abbrev Machine.Prints (lines : List String) (m m' : Machine) : Prop :=
  m.Continues (fun _ => False) lines m'

namespace Machine

variable {may : Nat → Prop} {lines lines' : List String} {m m' m'' : Machine}

/-- A machine continues itself. -/
theorem Continues.refl (m : Machine) : m.Continues may [] m :=
  ⟨Nat.le_refl _, fun _ _ _ => rfl, Array.append_empty.symm⟩

/-- One continuation after the other; the lines that they print follow each other. -/
theorem Continues.trans (h : m.Continues may lines m') (h' : m'.Continues may lines' m'') :
    m.Continues may (lines ++ lines') m'' where
  size_le := Nat.le_trans h.size_le h'.size_le
  tableAt_eq a ha hmay := by
    rw [h'.tableAt_eq a (Nat.lt_of_lt_of_le ha h.size_le) hmay, h.tableAt_eq a ha hmay]
  printed_eq := by
    rw [h'.printed_eq, h.printed_eq, Array.append_assoc, List.append_toArray lines lines']

/-- A new table prints nothing. -/
theorem prints_alloc (m : Machine) (table : Table Value) : m.Prints [] (m.alloc table) := by
  have hextends := Store.Extends.alloc m.store table
  exact ⟨hextends.size_le, fun a ha _ => hextends.tableAt_eq a ha, Array.append_empty.symm⟩

/-- Printing at most extends the store. -/
theorem Continues.store_extends (h : m.Prints lines m') : m.store.Extends m'.store :=
  ⟨h.size_le, fun a ha => h.tableAt_eq a ha id⟩

/-- What happens in a new scope changes no table of the caller's. -/
theorem Continues.of_alloc {table : Table Value}
    (h : (m.alloc table).Continues (· = m.store.tables.size) lines m') : m.Prints lines m' := by
  have hnew := m.prints_alloc table
  refine ⟨Nat.le_trans hnew.size_le h.size_le, fun a ha _ => ?_, h.printed_eq⟩
  rw [h.tableAt_eq a (Nat.lt_of_lt_of_le ha hnew.size_le) (Nat.ne_of_lt ha),
    hnew.tableAt_eq a ha id]

end Machine

/-! ## What an evaluation of code may look at -/

namespace Value

mutual

/-- The values that are evaluated if a value is evaluated as code: the value, and those in it. A
list in braces may be evaluated as code itself. -/
def parts : Value → List Value
  | sexpr items => sexpr items :: partsAll items
  | qexpr items => qexpr items :: sexpr items :: partsAll items
  | v => [v]

/-- The values that are evaluated if several values are evaluated as code. -/
def partsAll : List Value → List Value
  | [] => []
  | v :: vs => v.parts ++ partsAll vs

end

/-- A value is a part of itself. -/
theorem mem_parts_self (v : Value) : v ∈ v.parts := by
  cases v <;> simp [parts]

/-- The parts of an item are parts of the list. -/
theorem parts_subset_partsAll {v : Value} {vs : List Value} (hv : v ∈ vs) :
    v.parts ⊆ partsAll vs := by
  induction vs with
  | nil => cases hv
  | cons w vs ih =>
    intro part hpart
    rw [partsAll, List.mem_append]
    rcases List.mem_cons.1 hv with rfl | hv
    · exact .inl hpart
    · exact .inr (ih hv hpart)

end Value

/-- What stays the same while code is evaluated in a scope: the host, the values to which the
evaluation is confined, and the scope. -/
structure Setting where
  host : Host
  allowed : Value → Bool
  scope : Scope

namespace Setting

open Eval

variable (s : Setting)

/-- The evaluation of a value. -/
def evaluate (v : Value) (depth : Nat) : Interp Value :=
  confined s.allowed depth s.scope v

/-- The evaluation of several values. -/
def evaluateAll (vs : List Value) (depth : Nat) : Interp (List Value) :=
  evaluateItems (confined s.allowed depth) s.scope vs

/-- The application of a function. -/
def apply (f : Value) (args : List Value) (depth : Nat) : Interp Value :=
  applyWith (confined s.allowed depth) s.scope args f

/-- A value may be evaluated as code. -/
def Trusts (v : Value) : Prop :=
  ∀ w ∈ v.parts, s.allowed w = true

variable {s}

/-- Where everything is allowed, an application is not confined. -/
theorem apply_eq (h : ∀ v, s.allowed v = true) (f : Value) (args : List Value) :
    s.apply f args = fun depth => applyWith (Eval.evaluate depth) s.scope args f := by
  have hallowed : s.allowed = fun _ => true := funext h
  funext depth
  rw [apply, hallowed, confined_eq_evaluate]

/-- A value that is trusted is allowed. -/
theorem Trusts.self {v : Value} (h : s.Trusts v) : s.allowed v = true :=
  h v v.mem_parts_self

/-- The items of a call that is trusted are trusted. -/
theorem Trusts.item {items : List Value} (h : s.Trusts (.sexpr items)) {v : Value}
    (hv : v ∈ items) : s.Trusts v :=
  fun w hw => h w (List.mem_cons_of_mem _ (Value.parts_subset_partsAll hv hw))

/-- A list that may be evaluated may be evaluated as code. -/
theorem Trusts.quoted {items : List Value} (h : s.Trusts (.qexpr items)) :
    s.Trusts (.sexpr items) :=
  fun w hw => h w (List.mem_cons_of_mem _ hw)

/-- Each of the two lists of an `if` may be evaluated as code. -/
theorem Trusts.chosen {function condition : Value} {onTrue onFalse : List Value}
    (h : s.Trusts (.sexpr [function, condition, .qexpr onTrue, .qexpr onFalse])) (b : Bool) :
    s.Trusts (.sexpr (if b then onFalse else onTrue)) := by
  cases b with
  | false => exact (h.item (by simp)).quoted
  | true => exact (h.item (by simp)).quoted

end Setting

/-! ## Contexts -/

/-- What is known at a point of an evaluation: its setting, and tables that are there, among them
those of the scope. -/
structure Context extends Setting where
  store : Store Value
  below : scope.Below store.tables.size

namespace Context

open Interp Eval

/-- The value of a name. -/
def get? (c : Context) (name : String) : Option Value :=
  c.store.get? c.scope name

/-- In every machine with the tables of `c`, the computation settles with the result `a`, prints
`lines` and changes, of the tables there are, at most that of the scope. The machine it leaves has
the tables of `c'`. -/
def Leads {α : Type} (c : Context) (x : Nat → Interp α) (lines : List String) (a : α)
    (c' : Context) : Prop :=
  c'.toSetting = c.toSetting ∧ ∀ m, c.store.Extends m.store → ∃ m',
    c'.store.Extends m'.store ∧ m.Continues (· = c.scope.table) lines m' ∧
      ∃ n, Settles n x c.host m (.ok a) m'

/-- The same of any outcome, be it a result or an error. -/
def Reaches {α : Type} (c : Context) (x : Nat → Interp α) (lines : List String)
    (outcome : Except EvalError α) (c' : Context) : Prop :=
  c'.toSetting = c.toSetting ∧ ∀ m, c.store.Extends m.store → ∃ m',
    c'.store.Extends m'.store ∧ m.Continues (· = c.scope.table) lines m' ∧
      ∃ n, Settles n x c.host m outcome m'

/-- The evaluation of `v`, if `v` may be evaluated as code, leads to `c'`. -/
def Evaluates (c : Context) (v : Value) (lines : List String) (r : Value) (c' : Context) : Prop :=
  c.Trusts v → c.Leads (c.evaluate v) lines r c'

/-- The evaluation of `vs` from left to right leads to `c'`. -/
def EvaluatesAll (c : Context) (vs : List Value) (lines : List String) (rs : List Value)
    (c' : Context) : Prop :=
  (∀ v ∈ vs, c.Trusts v) → c.Leads (c.evaluateAll vs) lines rs c'

/-- The application of `f` changes none of the tables there are. -/
def Applies (c : Context) (f : Value) (args : List Value) (lines : List String) (r : Value) :
    Prop :=
  c.Leads (c.apply f args) lines r c

/-- The evaluation of `v` prints nothing and changes none of the tables there are. -/
abbrev Gives (c : Context) (v r : Value) : Prop :=
  c.Evaluates v [] r c

variable {c c' c'' : Context} {lines lines' : List String} {v r : Value}

/-! ### Sequences -/

namespace Reaches

variable {α β γ : Type} {x : Nat → Interp α} {outcome : Except EvalError α}

/-- What settles whenever a computation does is reached when that is. -/
theorem imp {y : Nat → Interp β} {outcome' : Except EvalError β} (hx : c.Reaches x lines outcome c')
    (h : ∀ n m m', Settles n x c.host m outcome m' → Settles (n + 1) y c.host m outcome' m') :
    c.Reaches y lines outcome' c' := by
  refine ⟨hx.1, fun m hm => ?_⟩
  obtain ⟨m', hm', hcontinues, n, hsettles⟩ := hx.2 m hm
  exact ⟨m', hm', hcontinues, n + 1, h n m m' hsettles⟩

/-- Two computations, one after the other, make up a third one. -/
theorem andThen {y : Nat → Interp β} {z : Nat → Interp γ} {outcome' : Except EvalError β}
    {outcome'' : Except EvalError γ} (hx : c.Reaches x lines outcome c')
    (hy : c'.Reaches y lines' outcome' c'')
    (h : ∀ n m m' m'', Settles n x c.host m outcome m' → Settles n y c.host m' outcome' m'' →
      Settles (n + 1) z c.host m outcome'' m'') :
    c.Reaches z (lines ++ lines') outcome'' c'' := by
  refine ⟨hy.1.trans hx.1, fun m hm => ?_⟩
  obtain ⟨m', hm', hcontinues, n, hsettles⟩ := hx.2 m hm
  obtain ⟨m'', hm'', hcontinues', k, hsettles'⟩ := hy.2 m' hm'
  rw [hx.1] at hcontinues' hsettles'
  exact ⟨m'', hm'', hcontinues.trans hcontinues', max n k + 1, h _ m m' m''
    (hsettles.mono (Nat.le_max_left n k)) (hsettles'.mono (Nat.le_max_right n k))⟩

/-- What leads back to the context it starts from changes no table. -/
theorem exists_prints (h : c.Reaches x lines outcome c) {m : Machine}
    (hm : c.store.Extends m.store) :
    ∃ m', m.Prints lines m' ∧ ∃ n, Settles n x c.host m outcome m' := by
  obtain ⟨m', hm', hcontinues, hsettles⟩ := h.2 m hm
  refine ⟨m', { hcontinues with tableAt_eq := fun a ha _ => ?_ }, hsettles⟩
  by_cases hown : a = c.scope.table
  -- the table of the scope is one of those that are there at the end as they were at the start
  · have hlt : a < c.store.tables.size := hown ▸ c.below _ List.mem_cons_self
    rw [hm'.tableAt_eq a hlt, hm.tableAt_eq a hlt]
  · exact hcontinues.tableAt_eq a ha hown

/-- An outcome is reached if it settles with every store that extends that of the context. -/
theorem of_exists_prints (h : ∀ m, c.store.Extends m.store → ∃ m', m.Prints lines m' ∧
    ∃ n, Settles n x c.host m outcome m') : c.Reaches x lines outcome c := by
  refine ⟨rfl, fun m hm => ?_⟩
  obtain ⟨m', hprints, hsettles⟩ := h m hm
  have hstore := hprints.store_extends
  exact ⟨m', hm.trans hstore, { hprints with tableAt_eq := fun a ha _ => hstore.tableAt_eq a ha },
    hsettles⟩

end Reaches

namespace Leads

variable {α β γ : Type} {x : Nat → Interp α} {a : α}

/-- What settles whenever a computation does has a result when that has. -/
theorem imp {y : Nat → Interp β} {b : β} (hx : c.Leads x lines a c')
    (h : ∀ n m m', Settles n x c.host m (.ok a) m' → Settles (n + 1) y c.host m (.ok b) m') :
    c.Leads y lines b c' :=
  Reaches.imp hx h

/-- One computation after the other; the lines that they print follow each other. -/
theorem andThen {y : Nat → Interp β} {z : Nat → Interp γ} {b : β} {d : γ}
    (hx : c.Leads x lines a c') (hy : c'.Leads y lines' b c'')
    (h : ∀ n m m' m'', Settles n x c.host m (.ok a) m' → Settles n y c.host m' (.ok b) m'' →
      Settles (n + 1) z c.host m (.ok d) m'') :
    c.Leads z (lines ++ lines') d c'' :=
  Reaches.andThen hx hy h

/-- A computation that always settles in the same way and leaves the machine as it is. -/
theorem of_forall (h : ∀ m, c.store.Extends m.store → Settles 1 x c.host m (.ok a) m) :
    c.Leads x [] a c :=
  ⟨rfl, fun m hm => ⟨m, hm, .refl m, 1, h m hm⟩⟩

/-- A result settles with every store that extends that of the context. -/
theorem exists_prints (h : c.Leads x lines a c) {m : Machine} (hm : c.store.Extends m.store) :
    ∃ m', m.Prints lines m' ∧ ∃ n, Settles n x c.host m (.ok a) m' :=
  Reaches.exists_prints h hm

/-- A result is led to if it settles with every store that extends that of the context. -/
theorem of_exists_prints (h : ∀ m, c.store.Extends m.store → ∃ m', m.Prints lines m' ∧
    ∃ n, Settles n x c.host m (.ok a) m') : c.Leads x lines a c :=
  Reaches.of_exists_prints h

end Leads

/-! ### Symbols, final values and lists of values -/

/-- A symbol gives the value that it is bound to. -/
theorem Evaluates.symbol {name : String} (h : c.get? name = some v) : c.Gives (.symbol name) v := by
  intro htrust
  refine Leads.of_forall fun m hm => settles_symbol htrust.self ?_
  rw [hm.get? c.below]
  exact h

/-- A final value gives itself. -/
theorem Evaluates.final (h : v.isFinal = true) : c.Gives v v :=
  fun htrust => Leads.of_forall fun _ _ => settles_of_isFinal htrust.self h

/-- No values evaluate to no results. -/
theorem EvaluatesAll.nil : c.EvaluatesAll [] [] [] c :=
  fun _ => Leads.of_forall fun _ _ => settles_items_nil

/-- Values are evaluated one after the other. -/
theorem EvaluatesAll.cons {vs rs : List Value} (h : c.Evaluates v lines r c')
    (hs : c'.EvaluatesAll vs lines' rs c'') :
    c.EvaluatesAll (v :: vs) (lines ++ lines') (r :: rs) c'' := by
  intro htrust
  have hfirst := h (htrust v List.mem_cons_self)
  unfold EvaluatesAll at hs
  rw [hfirst.1] at hs
  have hrest := hs fun w hw => htrust w (List.mem_cons_of_mem v hw)
  exact hfirst.andThen hrest fun n _ _ _ hitem hitems =>
    (settles_items_cons hitem hitems).mono (Nat.le_succ n)

/-! ### Calls -/

/-- A list of one item is evaluated as this item. -/
theorem Evaluates.single (h : c.Evaluates v lines r c') : c.Evaluates (.sexpr [v]) lines r c' := by
  intro htrust
  refine (h (htrust.item List.mem_cons_self)).imp fun n m m' hsettles => ?_
  exact settles_single htrust.self (settles_items_cons hsettles settles_items_nil)

/-- A call: the function of a name is applied to the values of the arguments. -/
theorem Evaluates.call {name : String} {f : Value} (hf : c.get? name = some f) {args : List Value}
    {a : Value} {as : List Value} (hargs : c.EvaluatesAll args lines (a :: as) c')
    (happly : c'.Leads (c'.apply f (a :: as)) lines' r c'') :
    c.Evaluates (.sexpr (.symbol name :: args)) (lines ++ lines') r c'' := by
  intro htrust
  have hitems := (EvaluatesAll.cons (.symbol hf) hargs) fun v hv => htrust.item hv
  rw [hitems.1] at happly
  exact hitems.andThen happly fun _ _ _ _ => settles_call htrust.self

/-- The arguments of an `if`. -/
theorem EvaluatesAll.branch {condition : Value} {n : Decimal} {onTrue onFalse : List Value}
    (h : c.Evaluates condition lines (.number n) c') :
    c.EvaluatesAll [condition, .qexpr onTrue, .qexpr onFalse] lines
      [.number n, .qexpr onTrue, .qexpr onFalse] c' := by
  have hlists : c'.EvaluatesAll [.qexpr onTrue, .qexpr onFalse] []
      [.qexpr onTrue, .qexpr onFalse] c' := .cons (.final rfl) (.cons (.final rfl) .nil)
  have hargs := EvaluatesAll.cons h hlists
  rwa [List.append_nil] at hargs

/-- `if` evaluates one of two lists as code. -/
theorem Evaluates.branch (hif : c.get? "if" = some (.builtin .branch)) {condition : Value}
    {n : Decimal} {onTrue onFalse : List Value}
    (hcondition : c.Evaluates condition lines (.number n) c')
    (hbody : c'.Evaluates (.sexpr (if n.isZero then onFalse else onTrue)) lines' r c'') :
    c.Evaluates (.sexpr [.symbol "if", condition, .qexpr onTrue, .qexpr onFalse])
      (lines ++ lines') r c'' := by
  intro htrust
  have hsetting := (hcondition (htrust.item (by simp))).1
  have hchosen : c'.Trusts (.sexpr (if n.isZero then onFalse else onTrue)) := by
    rw [hsetting]
    exact htrust.chosen n.isZero
  exact Evaluates.call hif (.branch hcondition) (hbody hchosen) htrust

/-- `eval` evaluates a list as code. -/
theorem Evaluates.eval (heval : c.get? "eval" = some (.builtin .evaluate)) {items : List Value}
    (htrust : c.Trusts (.sexpr items)) (hlist : c.Evaluates v lines (.qexpr items) c')
    (hbody : c'.Evaluates (.sexpr items) lines' r c'') :
    c.Evaluates (.sexpr [.symbol "eval", v]) (lines ++ lines') r c'' := by
  intro hcode
  have hsetting := (hlist (hcode.item (by simp))).1
  have hargs := EvaluatesAll.cons hlist .nil
  rw [List.append_nil] at hargs
  rw [← hsetting] at htrust
  exact Evaluates.call heval hargs (hbody htrust) hcode

/-! ### Assignments -/

/-- The context with a name bound in the table of its scope. -/
def bind (c : Context) (name : String) (v : Value) : Context where
  toSetting := c.toSetting
  store := c.store.define c.scope name v
  below := by
    rw [Store.size_define]
    exact c.below

/-- A binding makes no table. -/
theorem size_bind (c : Context) (name : String) (v : Value) :
    (c.bind name v).store.tables.size = c.store.tables.size :=
  Store.size_define c.store c.scope name v

/-- A binding leaves all tables but that of the scope. -/
theorem tableAt_bind (c : Context) (name : String) (v : Value) {a : Nat}
    (ha : a < c.store.tables.size) (hown : c.scope.table ≠ a) :
    (c.bind name v).store.tableAt a = c.store.tableAt a := by
  rw [bind, Store.tableAt_define _ _ _ _ _ ha, if_neg hown]

/-- The table of the scope is there. -/
theorem table_lt (c : Context) : c.scope.table < c.store.tables.size :=
  c.below _ List.mem_cons_self

/-- A name that was bound has its new value, and every other name the one that it had. -/
theorem get?_bind (c : Context) (name other : String) (v : Value) :
    (c.bind name v).get? other = if name = other then some v else c.get? other :=
  Store.get?_define c.table_lt name other v

/-- An assignment binds a name in the scope. -/
theorem apply_assign (c : Context) (name : String) (v : Value) :
    c.Leads (c.apply (.builtin .assign) [.qexpr [.symbol name], v]) [] .unit (c.bind name v) := by
  refine ⟨rfl, fun m hm => ?_⟩
  have hlt := Nat.lt_of_lt_of_le c.table_lt hm.size_le
  refine ⟨⟨m.store.define c.scope name v, m.printed, m.requests, m.input⟩, ⟨?_, ?_⟩, ⟨?_, ?_, ?_⟩,
    0, Settles.of_forall fun _ => rfl⟩
  · simpa [bind] using hm.size_le
  · intro a ha
    rw [bind, Store.size_define] at ha
    have ha' := Nat.lt_of_lt_of_le ha hm.size_le
    rw [bind, Store.tableAt_define _ _ _ _ _ ha', Store.tableAt_define _ _ _ _ _ ha,
      hm.tableAt_eq a ha]
  · simp
  · intro a ha hown
    rw [Store.tableAt_define _ _ _ _ _ ha, if_neg (Ne.symm hown)]
  · exact Array.append_empty.symm

/-- `=` binds a name in the table of the scope. -/
theorem Evaluates.assign (hassign : c.get? "=" = some (.builtin .assign)) {code : Value}
    (name : String) (h : c.Evaluates code lines v c') :
    c.Evaluates (.sexpr [.symbol "=", .qexpr [.symbol name], code]) lines .unit
      (c'.bind name v) := by
  have hname : c.Gives (.qexpr [.symbol name]) (.qexpr [.symbol name]) := .final rfl
  have hargs := EvaluatesAll.cons hname (EvaluatesAll.cons h .nil)
  have hcall := Evaluates.call hassign hargs (c'.apply_assign name v)
  simpa using hcall

/-! ### Applications -/

/-- A builtin without effects. -/
theorem Applies.builtin {b : Builtin} {args : List Value}
    (h : ∀ f m, applyBuiltin f c.scope args b c.host m = some (.ok r, m)) :
    c.Applies (.builtin b) args [] r :=
  Leads.of_forall fun m _ => Settles.of_forall fun _ => h _ m

/-- Printing prints a line. -/
theorem Applies.print (args : List Value) :
    c.Applies (.builtin .print) args [Primitive.printedLine args] .unit := by
  refine Leads.of_exists_prints fun m _ => ?_
  refine ⟨⟨m.store, m.printed.push (Primitive.printedLine args), m.requests, m.input⟩, ?_, 0,
    Settles.of_forall fun _ => rfl⟩
  exact ⟨Nat.le_refl _, fun _ _ _ => rfl, by simp⟩

/-- The context `c'` is one in which a body with the bindings `table` starts, called from `c`: it
has the tables of `c` and a new scope inside of that of `c`. -/
structure Enters (c : Context) (table : Table Value) (c' : Context) : Prop where
  host_eq : c'.host = c.host
  allowed_eq : c'.allowed = c.allowed
  store_extends : c.store.Extends c'.store
  size_le : c.store.tables.size ≤ c'.scope.table
  enclosing_eq : c'.scope.enclosing = c.scope.chain
  tableAt_eq : c'.store.tableAt c'.scope.table = table

/-- In a new scope, the names of its table are found first. -/
theorem Enters.get? {table : Table Value} (h : c.Enters table c') (name : String) :
    c'.get? name = (table.get? name).or (c.get? name) := by
  have hget := h.store_extends.get?_inside c.below h.enclosing_eq name
  rw [h.tableAt_eq] at hget
  exact hget

/-- The context with a new scope that has the bindings `table`, in a store with the tables of
`c`. -/
def inside (c : Context) {s : Store Value} (h : c.store.Extends s) (table : Table Value) :
    Context where
  host := c.host
  allowed := c.allowed
  scope := ⟨s.tables.size, c.scope.chain⟩
  store := (s.alloc table).1
  below := by
    intro a ha
    rw [Store.size_alloc]
    rcases List.mem_cons.1 ha with rfl | ha
    · exact Nat.lt_succ_self _
    · exact Nat.lt_succ_of_lt (Nat.lt_of_lt_of_le (c.below a ha) h.size_le)

/-- The new scope inside of a context is entered with its table. -/
theorem enters_inside {s : Store Value} (h : c.store.Extends s) (table : Table Value) :
    c.Enters table (c.inside h table) :=
  ⟨rfl, rfl, h.trans (.alloc s table), h.size_le, rfl, Store.tableAt_alloc_self s table⟩

/-- A lambda that gets all its arguments: its body is evaluated in a new scope inside of the
caller's. -/
theorem Reaches.lambda {params : List String} {body : List Value} {captured : Scope}
    {args : List Value} {table : Table Value} {outcome : Except EvalError Value}
    (hcaptured : captured.table < c.store.tables.size)
    (hbound : Invoke.bindArguments (c.store.tableAt captured.table) params args = .ok (table, []))
    (htrust : c.Trusts (.sexpr body))
    (hbody : ∀ c', c.Enters table c' → ∃ c'', c'.Trusts (.sexpr body) →
      c'.Reaches (c'.evaluate (.sexpr body)) lines outcome c'') :
    c.Reaches (c.apply (.lambda params body captured) args) lines outcome c := by
  refine Reaches.of_exists_prints fun m hm => ?_
  -- the body starts in the machine at hand, with the new table behind those that are there
  obtain ⟨c'', hreaches⟩ := hbody (c.inside hm table) (enters_inside hm table)
  obtain ⟨m', -, hcontinues, n, hsettles⟩ := (hreaches htrust).2 (m.alloc table) (.refl _)
  refine ⟨m', hcontinues.of_alloc, n, settles_invoke ?_ hsettles⟩
  rw [hm.tableAt_eq _ hcaptured]
  exact hbound

/-- A lambda that gets all its arguments has the result of its body. -/
theorem Applies.lambda {params : List String} {body : List Value} {captured : Scope}
    {args : List Value} {table : Table Value} (hcaptured : captured.table < c.store.tables.size)
    (hbound : Invoke.bindArguments (c.store.tableAt captured.table) params args = .ok (table, []))
    (htrust : c.Trusts (.sexpr body))
    (hbody : ∀ c', c.Enters table c' → ∃ c'', c'.Evaluates (.sexpr body) lines r c'') :
    c.Applies (.lambda params body captured) args lines r :=
  Reaches.lambda hcaptured hbound htrust hbody

end Context

end QLisp
