import QLisp.Proofs.Checks
import QLisp.Proofs.Invocation

/-!
# Definitions are made as a whole or not at all

`def` and `=` look at all their arguments before they bind anything: there has to be a list of
symbols, and one value for each. `Binder.Refuses` lists what they refuse, and nothing is bound then.
Otherwise the pairs of names and values override the bindings of one table, that of the root for
`def` and the calling scope's own for `=`, and no other table is touched.

The root is found through the scopes around the calling one. The body of a lambda, also of one that
was partially applied and whose own scope has nothing around it, is evaluated inside of the scope
of the call; so the root is the same for everything that happens during a call of the interpreter.
The statement is `Binder.binds_all_or_nothing`.
-/

set_option autoImplicit false

namespace QLisp

namespace Store

variable (s : Store Value) (scope : Scope)

/-- Definitions in a scope change its own table and no other. -/
theorem tableAt_defineAll (bindings : List (String × Value)) {address : Nat}
    (h : address < s.tables.size) :
    (s.defineAll scope bindings).tableAt address
      = if scope.table = address then (s.tableAt address).bindAll bindings
        else s.tableAt address := by
  induction bindings generalizing s with
  | nil => exact (ite_self _).symm
  | cons binding rest ih =>
    have hlt : address < (s.define scope binding.1 binding.2).tables.size :=
      Nat.lt_of_lt_of_eq h (s.size_define scope _ _).symm
    rw [defineAll, ih _ hlt, tableAt_define _ _ _ _ _ h, Table.bindAll_cons]
    by_cases htable : scope.table = address
    · rw [if_pos htable, if_pos htable, if_pos htable]
    · rw [if_neg htable, if_neg htable, if_neg htable]

/-- No table is there that was not there before. -/
theorem tableAt_defineAll_of_ne (bindings : List (String × Value)) {address : Nat}
    (h : address ≠ scope.table) :
    (s.defineAll scope bindings).tableAt address = s.tableAt address := by
  rcases Nat.lt_or_ge address s.tables.size with hlt | hge
  · rw [tableAt_defineAll _ _ _ hlt, if_neg (Ne.symm h)]
  · rw [tableAt_of_size_le s _ hge,
      tableAt_of_size_le _ _ (Nat.le_trans (Nat.le_of_eq (s.size_defineAll scope bindings)) hge)]

end Store

/-- The builtins that bind names. -/
inductive Binder where
  | define
  | assign

namespace Binder

/-- The builtin that binds. -/
def builtin : Binder → Builtin
  | define => .define
  | assign => .assign

/-- The scope whose own table gets the bindings. -/
def target : Binder → Scope → Scope
  | define => Scope.root
  | assign => id

/-- The arguments that are refused and the errors, where a fault comes after all those that are
looked for before it: no argument, a first one that is no Q-expression, an item of it that is no
symbol, and another number of values than of names. -/
inductive Refuses (b : Binder) : List Value → EvalError → Prop
  | noArgument : Refuses b [] (.arity (.noNames b.builtin))
  | notList {v : Value} (hv : ∀ items, v ≠ .qexpr items) (values : List Value) :
    Refuses b (v :: values) (.type (.notList b.builtin v.shown))
  | notSymbol (names : List String) {v : Value} (hv : ∀ name, v ≠ .symbol name)
      (after values : List Value) :
    Refuses b (.qexpr (names.map .symbol ++ v :: after) :: values)
      (.type (.nameNotSymbol b.builtin v.render))
  | count {names : List String} {values : List Value} (h : names.length ≠ values.length) :
    Refuses b (.qexpr (names.map .symbol) :: values)
      (.arity (.namesAndValues b.builtin names.length values.length))

/-- The machine `m'` is `m` with `names` bound to `values` in one table: a listed name has the last
value that stands beside it, and any other name has what it had. -/
structure Binds (m m' : Machine) (table : Nat) (names : List String) (values : List Value) :
    Prop where
  overrides : (m'.store.tableAt table).Overrides (m.store.tableAt table) (names.zip values)
  others : ∀ address, address ≠ table → m'.store.tableAt address = m.store.tableAt address
  size : m'.store.tables.size = m.store.tables.size
  printed : m'.printed = m.printed
  requests : m'.requests = m.requests
  input : m'.input = m.input

variable {b : Binder}

/-! ## Checks -/

/-- Without arguments there are no names. -/
theorem bindings_nil (f : Builtin) :
    Primitive.bindings f [] = .error (.arity (.noNames f)) := rfl

/-- Names have to stand in a list. -/
theorem bindings_of_ne (f : Builtin) {v : Value} (hv : ∀ items, v ≠ .qexpr items)
    (values : List Value) :
    Primitive.bindings f (v :: values) = .error (.type (.notList f v.shown)) := by
  show (Primitive.expectList f v >>= _) = _
  rw [Primitive.expectList_of_ne f hv]
  rfl

/-- The first item that is no symbol is rejected. -/
theorem bindings_of_not_symbol (f : Builtin) (names : List String) {v : Value}
    (hv : ∀ name, v ≠ .symbol name) (after values : List Value) :
    Primitive.bindings f (.qexpr (names.map .symbol ++ v :: after) :: values)
      = .error (.type (.nameNotSymbol f v.render)) := by
  have hfirst := Primitive.forAll_of_first_fault _ .symbol (fun _ => rfl) names
    (Primitive.expectSymbol_of_ne (.nameNotSymbol f) hv) after
  show (Primitive.forAll (Primitive.expectSymbol (.nameNotSymbol f)) _ >>= _) = _
  rw [hfirst]
  rfl

/-- Symbols are bound to as many values. -/
theorem bindings_symbols (f : Builtin) (names : List String) (values : List Value) :
    Primitive.bindings f (.qexpr (names.map .symbol) :: values)
      = if names.length = values.length then .ok (names.zip values)
        else .error (.arity (.namesAndValues f names.length values.length)) := by
  show (Primitive.forAll (Primitive.expectSymbol (.nameNotSymbol f)) _ >>= _) = _
  rw [Primitive.forAll_expectSymbol]
  rfl

/-- Arguments are refused, or they are as many values as names. -/
theorem refuses_or_pairs (b : Binder) (args : List Value) :
    (∃ e, b.Refuses args e) ∨ ∃ (names : List String) (values : List Value),
      args = .qexpr (names.map .symbol) :: values ∧ names.length = values.length := by
  rcases args with _ | ⟨v, values⟩
  · exact .inl ⟨_, .noArgument⟩
  by_cases hv : ∀ items, v ≠ .qexpr items
  · exact .inl ⟨_, .notList hv values⟩
  obtain ⟨items, rfl⟩ : ∃ items, v = .qexpr items := by simpa using hv
  rcases Primitive.eq_map_or_first Value.symbol items with
    ⟨names, rfl⟩ | ⟨names, w, after, rfl, hw⟩
  · by_cases hcount : names.length = values.length
    · exact .inr ⟨names, values, rfl, hcount⟩
    · exact .inl ⟨_, .count hcount⟩
  · exact .inl ⟨_, .notSymbol names hw after values⟩

/-- Arguments that are refused have the error that says so. -/
theorem bindings_of_refuses {args : List Value} {e : EvalError} (h : b.Refuses args e) :
    Primitive.bindings b.builtin args = .error e := by
  cases h with
  | noArgument => exact bindings_nil _
  | notList hv values => exact bindings_of_ne _ hv values
  | notSymbol names hv after values => exact bindings_of_not_symbol _ names hv after values
  | count h => rw [bindings_symbols, if_neg h]

/-- As many symbols as values are bound pairwise. -/
theorem bindings_pairs (b : Binder) {names : List String} {values : List Value}
    (h : names.length = values.length) :
    Primitive.bindings b.builtin (.qexpr (names.map .symbol) :: values)
      = .ok (names.zip values) := by
  rw [bindings_symbols, if_pos h]

/-! ## Effects -/

/-- The application of a binder makes its bindings in the table of its target. -/
theorem applyBuiltin_eq (b : Binder) (evaluate : Evaluator) (scope : Scope) (args : List Value) :
    Eval.applyBuiltin evaluate scope args b.builtin
      = (Interp.ofExcept (Primitive.bindings b.builtin args) >>= fun bindings =>
          Interp.changeStore (·.defineAll (b.target scope) bindings) >>= fun _ =>
            pure .unit) := by
  cases b <;> rfl

/-- Where arguments are refused, nothing is bound. -/
theorem applyBuiltin_of_refuses {args : List Value} {e : EvalError} (h : b.Refuses args e)
    (evaluate : Evaluator) (scope : Scope) (host : Host) (m : Machine) :
    Eval.applyBuiltin evaluate scope args b.builtin host m = some (.error e, m) := by
  rw [applyBuiltin_eq, bindings_of_refuses h]
  rfl

/-- Where as many symbols as values are given, all of them are bound. -/
theorem applyBuiltin_pairs (b : Binder) {names : List String} {values : List Value}
    (h : names.length = values.length) (evaluate : Evaluator) (scope : Scope) (host : Host)
    (m : Machine) :
    Eval.applyBuiltin evaluate scope (.qexpr (names.map .symbol) :: values) b.builtin host m
      = some (.ok .unit,
          { m with store := m.store.defineAll (b.target scope) (names.zip values) }) := by
  rw [applyBuiltin_eq, bindings_pairs b h]
  rfl

/-- The target of a binder is a table that is there. -/
theorem target_lt {scope : Scope} {n : Nat} (h : scope.Below n) : (b.target scope).table < n := by
  cases b with
  | define => exact h.root _ (List.mem_cons_self ..)
  | assign => exact h _ (List.mem_cons_self ..)

/-- Definitions of pairs bind names to values, and change nothing else. -/
theorem binds_defineAll (m : Machine) (scope : Scope) (h : scope.table < m.store.tables.size)
    (names : List String) (values : List Value) :
    Binds m { m with store := m.store.defineAll scope (names.zip values) } scope.table names
      values where
  overrides := by
    show ((m.store.defineAll scope _).tableAt scope.table).Overrides _ _
    rw [Store.tableAt_defineAll _ _ _ h, if_pos rfl]
    exact Table.bindAll_overrides _ _
  others := fun _ hne => Store.tableAt_defineAll_of_ne _ _ _ hne
  size := Store.size_defineAll _ _ _
  printed := rfl
  requests := rfl
  input := rfl

/-- What `def` and `=` do to any arguments. They fail exactly for the arguments that they refuse,
and nothing has changed then. All other arguments are a list of symbols with one value for each; the
unit value is returned, and the names are bound to the values in one table: that of the root for
`def`, and the calling scope's own for `=`. The root is the same for everything that happens during
a call of the interpreter, however deep in calls of lambdas: a supervisor who permits only what
happens under the root of the call does not interfere. -/
theorem binds_all_or_nothing :
    (∀ (b : Binder) (args : List Value) (evaluate : Evaluator) (scope : Scope) (host : Host)
        (m : Machine),
      (∀ (e : EvalError) (m' : Machine),
        Eval.applyBuiltin evaluate scope args b.builtin host m = some (.error e, m')
          ↔ b.Refuses args e ∧ m' = m)
      ∧ (scope.Below m.store.tables.size → (∀ e, ¬ b.Refuses args e) →
        ∃ (names : List String) (values : List Value) (m' : Machine),
          args = .qexpr (names.map .symbol) :: values
          ∧ names.length = values.length
          ∧ Eval.applyBuiltin evaluate scope args b.builtin host m = some (.ok .unit, m')
          ∧ Binds m m' (b.target scope).table names values))
    ∧ ∀ (call : Call) (scope : Scope) (depth : Nat),
      call.perform (Eval.supervised (fun event => event.scope.root = scope.root) depth) scope
        = call.perform (Eval.evaluate depth) scope := by
  refine ⟨fun b args evaluate scope host m =>
      ⟨fun e m' => ⟨fun h => ?_, ?_⟩, fun hscope hargs => ?_⟩,
    fun call scope depth => ?_⟩
  · rcases b.refuses_or_pairs args with ⟨e', he'⟩ | ⟨names, values, rfl, hlength⟩
    · rw [applyBuiltin_of_refuses he'] at h
      cases h
      exact ⟨he', rfl⟩
    · rw [applyBuiltin_pairs b hlength] at h
      cases h
  · rintro ⟨hrefuses, rfl⟩
    exact applyBuiltin_of_refuses hrefuses evaluate scope host m'
  · rcases b.refuses_or_pairs args with ⟨e, he⟩ | ⟨names, values, rfl, hlength⟩
    · exact absurd he (hargs e)
    · exact ⟨names, values, _, rfl, hlength, applyBuiltin_pairs b hlength evaluate scope host m,
        binds_defineAll m _ (target_lt hscope) names values⟩
  · have hagree := Eval.supervised_agrees
      (fun (event : Event) (hevent : event.scope.root = scope.root) => decide_eq_true hevent) depth
    exact hagree.perform rfl call

/-- The last value of a repeated name wins, in the root although the calling scope is inside. -/
theorem binds_all_or_nothing_repeated :
    ∃ m' : Machine,
      Eval.applyBuiltin (fun _ _ => Interp.tooDeep) ⟨1, [0]⟩
          [.qexpr [.symbol "x", .symbol "y", .symbol "x"], .text "a", .text "b", .text "c"] .define
          (fun _ => .input) (Machine.withBuiltins.1.alloc .empty) = some (.ok .unit, m')
        ∧ (m'.store.tableAt 0).get? "x" = some (.text "c")
        ∧ (m'.store.tableAt 0).get? "head" = some (.builtin .head)
        ∧ m'.store.tableAt 1 = .empty := by
  have hscope : (⟨1, [0]⟩ : Scope).Below
      (Machine.withBuiltins.1.alloc .empty).store.tables.size := by decide +kernel
  have haccepts : ∀ e, ¬ define.Refuses
      [.qexpr [.symbol "x", .symbol "y", .symbol "x"], .text "a", .text "b", .text "c"] e := by
    intro e h
    cases bindings_of_refuses h
  obtain ⟨names, values, m', hargs, -, hanswer, hbinds⟩ :=
    (binds_all_or_nothing.1 define _ (fun _ _ => Interp.tooDeep) _ (fun _ => .input) _).2 hscope
      haccepts
  obtain ⟨hnames, rfl⟩ := List.cons.inj hargs
  obtain rfl : ["x", "y", "x"] = names :=
    (List.map_inj_right fun _ _ h => Value.symbol.inj h).1 (Value.qexpr.inj hnames)
  exact ⟨m', hanswer, hbinds.overrides "x", (hbinds.overrides "head").trans rfl,
    hbinds.others 1 (by decide)⟩

end Binder

end QLisp
