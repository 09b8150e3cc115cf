import QLisp.Proofs.Evolution

/-!
# What stays as it was

A call of the interpreter in a scope changes, of the tables that were there, only the table of that
scope and the table of its root; whatever is evaluated on the way is evaluated under the same root.
The call of a lambda does not even change the table of the scope that it is called from: it changes
the table of the root, and that only by `def`.

The statement is `Eval.changes_own_and_root`.
-/

set_option autoImplicit false

namespace QLisp

/-- Of the tables of the store `s`, at most those whose addresses satisfy `may` are different in
the store `t`, and no table has lost a name. -/
structure Store.ChangedOnly (may : Nat → Prop) (s t : Store Value) : Prop where
  tableAt_eq : ∀ a, a < s.tables.size → ¬ may a → t.tableAt a = s.tableAt a
  mem_names : ∀ a name, name ∈ (s.tableAt a).names → name ∈ (t.tableAt a).names

namespace Interp.Acts

variable {α : Type} {may : Nat → Prop} {Q : α → Prop} {x : Interp α}

/-- Of the tables that were there, a computation changes those only that it may change. -/
theorem changedOnly (hx : Acts (fun _ => True) may Q x) {host : Host} {m m' : Machine}
    {outcome : Except EvalError α} (heq : x host m = some (outcome, m')) :
    m.store.ChangedOnly may m'.store := by
  have hall : m.store.All fun _ => True := fun _ _ _ => trivial
  obtain ⟨hevolves, -⟩ := hx host m outcome m' hall heq
  refine ⟨?_, fun a name hname => hevolves.mem_names hname⟩
  intro a ha hmay
  refine hevolves.tableAt_eq ha ?_
  rintro (h | h)
  · exact hmay h
  · omega

end Interp.Acts

namespace Eval

/-- A call changes only the tables of its scope and of the root. -/
theorem perform_changedOnly (depth : Nat) (scope : Scope) (call : Call) {host : Host}
    {m m' : Machine} {outcome : Except EvalError Value}
    (h : call.perform (evaluate depth) scope host m = some (outcome, m')) :
    m.store.ChangedOnly (fun a => a = scope.table ∨ a = scope.root.table) m'.store := by
  have hcall : call.AllArguments fun _ => True := by
    cases call with
    | apply function args => exact fun _ _ => trivial
    | _ => trivial
  have hacts : Interp.Acts (fun _ => True) (scope.MayChange True) (fun _ => True)
      (call.perform (evaluate depth) scope) :=
    Call.perform_acts (fun _ _ => trivial) (evaluate_acts (fun _ _ => trivial) depth) hcall
  refine (hacts.mono ?_).changedOnly h
  rintro a (ha | ⟨-, ha⟩)
  · exact .inl ha
  · exact .inr ha

/-- The call of a lambda changes at most the table of the root, and none if names may not be bound
there. -/
theorem invoke_changedOnly {f : Evaluator} {global : Prop}
    (hf : f.Acts (fun _ => True) global) {scope : Scope} {params : List String}
    {body : List Value} {captured : Scope} {args : List Value} {host : Host} {m m' : Machine}
    {outcome : Except EvalError Value}
    (h : Invoke.invoke f params body captured args scope host m = some (outcome, m')) :
    m.store.ChangedOnly (fun a => global ∧ a = scope.root.table) m'.store := by
  have hacts : Interp.Acts (fun _ => True) (fun a => global ∧ a = scope.root.table)
      (fun _ => True) (Invoke.invoke f params body captured args scope) :=
    hf.invoke (fun _ _ => trivial) params body captured fun _ _ => trivial
  exact hacts.changedOnly h

/-- The frame of a call. A call in a scope that ends, with a result or an error, changes of the
tables that were there only those of the scope and of its root, and no table loses a name. All
that happens during the call happens in scopes with the same root. The call of a lambda changes at
most the table of the root, and none at all if no `def` is applied during it. -/
theorem changes_own_and_root (depth : Nat) (scope : Scope) :
    (∀ (call : Call) (host : Host) (m m' : Machine) (outcome : Except EvalError Value),
      call.perform (evaluate depth) scope host m = some (outcome, m') →
      m.store.ChangedOnly (fun a => a = scope.table ∨ a = scope.root.table) m'.store)
    ∧ (∀ call : Call,
      call.perform (supervised (fun e => decide (e.scope.root = scope.root)) depth) scope
        = call.perform (evaluate depth) scope)
    ∧ ∀ (params : List String) (body : List Value) (captured : Scope) (args : List Value)
        (host : Host) (m m' : Machine) (outcome : Except EvalError Value),
      (Invoke.invoke (evaluate depth) params body captured args scope host m
          = some (outcome, m') →
        m.store.ChangedOnly (fun a => a = scope.root.table) m'.store)
      ∧ (Invoke.invoke (supervised (fun e => !e.isDefinition) depth) params body captured args
            scope host m = some (outcome, m') →
        Invoke.invoke (evaluate depth) params body captured args scope host m
            = some (outcome, m')
          ∧ m.store.ChangedOnly (fun _ => False) m'.store) := by
  refine ⟨?_, ?_, ?_⟩
  · intro call host m m' outcome h
    exact perform_changedOnly depth scope call h
  · intro call
    have hagree : Evaluator.AgreeUnder scope.root
        (supervised (fun e => decide (e.scope.root = scope.root)) depth) (evaluate depth) :=
      supervised_agrees (fun e he => decide_eq_true he) depth
    exact hagree.perform rfl call
  · intro params body captured args host m m' outcome
    constructor
    · intro h
      obtain ⟨htables, hnames⟩ := invoke_changedOnly (evaluate_acts (fun _ _ => trivial) depth) h
      exact ⟨fun a ha hroot => htables a ha fun hmay => hroot hmay.2, hnames⟩
    · intro h
      have hacts : Evaluator.Acts (fun _ => True) False
          (supervised (fun e => !e.isDefinition) depth) :=
        supervised_acts (fun _ _ => trivial) (fun _ _ hdef => Bool.false_ne_true hdef) depth
      obtain ⟨htables, hnames⟩ := invoke_changedOnly hacts h
      refine ⟨(supervised_below _ depth).invoke params body captured args scope host m
        (outcome, m') h, fun a ha _ => htables a ha fun hmay => hmay.1, hnames⟩

/-- An assignment changes the table of its scope, so in the body of a lambda no table that was
there. -/
theorem changes_own_and_root_assign :
    ∃ m m₁ m₂ : Machine,
      m.store = ⟨#[⟨[("=", .builtin .assign)]⟩, .empty]⟩
      ∧ evaluate 3 ⟨1, [0]⟩ (.sexpr [.symbol "=", .qexpr [.symbol "y"], .number ⟨1, 0⟩])
          (fun _ => .input) m = some (.ok .unit, m₁)
      ∧ m.store.ChangedOnly (fun a => a = 1 ∨ a = 0) m₁.store
      ∧ Invoke.invoke (supervised (fun e => !e.isDefinition) 3) ["x"]
          [.symbol "=", .qexpr [.symbol "y"], .symbol "x"] ⟨1, [0]⟩ [.number ⟨1, 0⟩] ⟨1, [0]⟩
          (fun _ => .input) m = some (.ok .unit, m₂)
      ∧ m.store.ChangedOnly (fun _ => False) m₂.store := by
  obtain ⟨hcall, -, hinvoke⟩ := changes_own_and_root 3 ⟨1, [0]⟩
  obtain ⟨m, hm⟩ : ∃ m : Machine,
      m = ⟨⟨#[⟨[("=", .builtin .assign)]⟩, .empty]⟩, #[], #[], .nothing⟩ :=
    ⟨_, rfl⟩
  obtain ⟨m₁, hassign⟩ : ∃ m₁, evaluate 3 ⟨1, [0]⟩
      (.sexpr [.symbol "=", .qexpr [.symbol "y"], .number ⟨1, 0⟩]) (fun _ => .input) m
        = some (.ok .unit, m₁) := by
    rw [hm]
    exact ⟨_, rfl⟩
  obtain ⟨m₂, hlambda⟩ : ∃ m₂, Invoke.invoke (supervised (fun e => !e.isDefinition) 3) ["x"]
      [.symbol "=", .qexpr [.symbol "y"], .symbol "x"] ⟨1, [0]⟩ [.number ⟨1, 0⟩] ⟨1, [0]⟩
      (fun _ => .input) m = some (.ok .unit, m₂) := by
    rw [hm]
    exact ⟨_, rfl⟩
  refine ⟨m, m₁, m₂, congrArg Machine.store hm, hassign, ?_, hlambda, ?_⟩
  · exact hcall (.evaluate (.sexpr [.symbol "=", .qexpr [.symbol "y"], .number ⟨1, 0⟩])) _ _ _ _
      hassign
  · exact ((hinvoke _ _ _ _ _ _ _ _).2 hlambda).2

end Eval

end QLisp
