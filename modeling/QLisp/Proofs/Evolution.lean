import QLisp.Proofs.Supervision
import QLisp.Proofs.View

/-!
# What an evaluation does to the tables

Whatever a computation does to the store, it does by two kinds of changes: it puts new tables into
it, and it binds names in tables. `Store.Evolves P may` says that one store comes from another in
this way, where the values that are bound or put into new tables have the property `P`, and the
tables in which names are bound have addresses that satisfy `may`.

An evaluation in a scope binds names in the table of the scope, in that of its root, and in tables
that it made itself; the call of a lambda leaves out the first; and only `def` reaches the root.
The values it binds are results of evaluations, so `P` may be any property of final values. All this
is one statement about evaluation under a supervisor, `Eval.supervised_acts`.
-/

set_option autoImplicit false

namespace QLisp

/-- The stores that come from the store `s` by new tables with values that have the property `P`,
and by binding names to such values in tables with addresses that satisfy `may`. -/
inductive Store.Evolves (P : Value → Prop) (may : Nat → Prop) (s : Store Value) :
    Store Value → Prop
  | refl : Evolves P may s s
  | alloc {t : Store Value} (h : Evolves P may s t) {table : Table Value}
    (htable : table.All P) : Evolves P may s (t.alloc table).1
  | define {t : Store Value} (h : Evolves P may s t) {scope : Scope} (hmay : may scope.table)
    (name : String) {v : Value} (hv : P v) : Evolves P may s (t.define scope name v)

variable {P : Value → Prop}

namespace Table

/-- A table does not lose a name when another one is bound. -/
theorem mem_names_insert {t : Table Value} {name : String} (h : name ∈ t.names) (other : String)
    (v : Value) : name ∈ (t.insert other v).names := by
  rw [mem_names_iff] at h ⊢
  rw [get?_insert]
  split
  · rfl
  · exact h

end Table

namespace Store

namespace Evolves

variable {may may' : Nat → Prop} {s t u : Store Value}

/-- One evolution after the other. -/
theorem trans (hst : s.Evolves P may t) (htu : t.Evolves P may u) : s.Evolves P may u := by
  induction htu with
  | refl => exact hst
  | alloc _ htable ih => exact ih.alloc htable
  | define _ hmay name hv ih => exact ih.define hmay name hv

/-- More tables may change. -/
theorem mono (h : s.Evolves P may t) (hmay : ∀ a, may a → may' a) : s.Evolves P may' t := by
  induction h with
  | refl => exact .refl
  | alloc _ htable ih => exact ih.alloc htable
  | define _ ha name hv ih => exact ih.define (hmay _ ha) name hv

/-- Definitions in a table that may change go on with an evolution. -/
theorem defineAll (h : s.Evolves P may t) {scope : Scope} (hmay : may scope.table)
    {bindings : List (String × Value)} (hbindings : ∀ b ∈ bindings, P b.2) :
    s.Evolves P may (t.defineAll scope bindings) := by
  induction bindings generalizing t with
  | nil => exact h
  | cons binding rest ih =>
    obtain ⟨name, v⟩ := binding
    have hv : P v := hbindings (name, v) List.mem_cons_self
    exact ih (h.define hmay name hv) fun b hb => hbindings b (List.mem_cons_of_mem _ hb)

/-- No table gets lost. -/
theorem size_le (h : s.Evolves P may t) : s.tables.size ≤ t.tables.size := by
  induction h with
  | refl => exact Nat.le_refl _
  | alloc _ _ ih =>
    rw [size_alloc]
    omega
  | define _ _ _ _ ih => rwa [size_define]

/-- A table that was there and may not change is as it was. -/
theorem tableAt_eq (h : s.Evolves P may t) {a : Nat} (ha : a < s.tables.size) (hmay : ¬ may a) :
    t.tableAt a = s.tableAt a := by
  induction h with
  | refl => rfl
  | alloc h _ ih =>
    have hsize := h.size_le
    rw [tableAt_alloc_of_lt _ _ a (by omega), ih]
  | @define t h scope hscope name v _ ih =>
    have hsize := h.size_le
    have hne : scope.table ≠ a := by
      rintro rfl
      exact hmay hscope
    rw [tableAt_define t scope name v a (by omega), if_neg hne, ih]

/-- No table loses a name. -/
theorem mem_names (h : s.Evolves P may t) {a : Nat} {name : String}
    (hname : name ∈ (s.tableAt a).names) : name ∈ (t.tableAt a).names := by
  have ha : a < s.tables.size := by
    apply Nat.lt_of_not_le
    intro hle
    rw [tableAt_of_size_le s a hle] at hname
    cases hname
  induction h with
  | refl => exact hname
  | alloc h _ ih =>
    have hsize := h.size_le
    rwa [tableAt_alloc_of_lt _ _ a (by omega)]
  | @define t h scope _ other v _ ih =>
    have hsize := h.size_le
    rw [tableAt_define t scope other v a (by omega)]
    split
    · exact Table.mem_names_insert ih other v
    · exact ih

/-- What holds of all values before an evolution, and of those that are bound, holds of all after
it. -/
theorem all (h : s.Evolves P may t) (hs : s.All P) : t.All P := by
  induction h with
  | refl => exact hs
  | alloc _ htable ih => exact ih.alloc htable
  | @define t _ scope _ name v hv ih => exact ih.define scope name hv

end Evolves

end Store

/-! ## Results of builtins -/

namespace Primitive

/-- Where one outcome after the other is a result, both are. -/
theorem eq_ok_of_bind {α β : Type} {x : Outcome α} {f : α → Outcome β} {b : β}
    (h : x >>= f = .ok b) : ∃ a, x = .ok a ∧ f a = .ok b := by
  cases x with
  | error e => cases h
  | ok a => exact ⟨a, rfl, h⟩

/-- An outcome that is a final value if it is no error. -/
def Final (x : Outcome Value) : Prop :=
  ∀ v, x = .ok v → v.isFinal = true

namespace Final

/-- A final value as an outcome. -/
theorem ok {v : Value} (hv : v.isFinal = true) : Final (.ok v) := by
  intro w hw
  rwa [← Except.ok.inj hw]

/-- An error is no value that had to be final. -/
theorem error (e : EvalError) : Final (.error e) :=
  fun _ hv => nomatch hv

/-- One outcome after the other. -/
theorem bind {α : Type} {x : Outcome α} {f : α → Outcome Value} (hf : ∀ a, Final (f a)) :
    Final (x >>= f) := by
  intro v hv
  obtain ⟨a, -, hv⟩ := eq_ok_of_bind hv
  exact hf a v hv

end Final

variable {args : List Value}

/-- Arithmetic has final results. -/
theorem final_arithmetic {f : Builtin} {alone : Option Decimal}
    {op : Decimal → Decimal → Outcome Decimal} : Final (arithmetic f alone op args) := by
  refine .bind fun numbers => ?_
  split
  · exact .error _
  · exact .bind fun _ => .ok rfl
  · exact .bind fun _ => .ok rfl

/-- Comparisons have final results. -/
theorem final_compare {f : Builtin} {holds : Decimal → Decimal → Bool} :
    Final (compare f holds args) :=
  .bind fun _ => .bind fun _ => .bind fun _ => .ok rfl

/-- Names are bound to arguments. -/
theorem mem_of_mem_bindings {f : Builtin} {bound : List (String × Value)}
    (h : bindings f args = .ok bound) {b : String × Value} (hb : b ∈ bound) : b.2 ∈ args := by
  cases args with
  | nil => cases h
  | cons first values =>
    obtain ⟨items, -, h⟩ := eq_ok_of_bind h
    obtain ⟨names, -, h⟩ := eq_ok_of_bind h
    split at h
    · cases h
      exact List.mem_cons_of_mem _ (List.of_mem_zip hb).2
    · cases h

end Primitive

/-! ## Computations -/

/-- A computation under which stores with values that have the property `P` evolve; it binds names
in tables that `may` change and in tables of its own, and `Q` holds of its results. -/
def Interp.Acts {α : Type} (P : Value → Prop) (may : Nat → Prop) (Q : α → Prop)
    (x : Interp α) : Prop :=
  ∀ host m outcome m', m.store.All P → x host m = some (outcome, m') →
    m.store.Evolves P (fun a => may a ∨ m.store.tables.size ≤ a) m'.store
      ∧ ∀ a, outcome = .ok a → Q a

/-- The tables that an evaluation in a scope may change: that of the scope, and that of the root if
`global` holds. -/
def Scope.MayChange (global : Prop) (scope : Scope) (a : Nat) : Prop :=
  a = scope.table ∨ (global ∧ a = scope.root.table)

/-- A call that applies a function, if it does so, to arguments with a property. -/
def Call.AllArguments (P : Value → Prop) : Call → Prop
  | .apply _ args => ∀ v ∈ args, P v
  | _ => True

/-- An evaluator that changes no tables but those of its scope and those it makes itself. -/
def Evaluator.Acts (P : Value → Prop) (global : Prop) (f : Evaluator) : Prop :=
  ∀ scope v, Interp.Acts P (scope.MayChange global) P (f scope v)

namespace Interp.Acts

variable {α β : Type} {may may' : Nat → Prop} {Q : α → Prop} {R : β → Prop}

/-- A computation that leaves the store as it is. -/
theorem of_store_eq {x : Interp α}
    (h : ∀ host m outcome m', m.store.All P → x host m = some (outcome, m') →
      m'.store = m.store ∧ ∀ a, outcome = .ok a → Q a) : Acts P may Q x := by
  intro host m outcome m' hall heq
  obtain ⟨hstore, hresult⟩ := h host m outcome m' hall heq
  rw [hstore]
  exact ⟨.refl, hresult⟩

/-- A plain outcome changes nothing. -/
theorem ofExcept {x : Except EvalError α} (h : ∀ a, x = .ok a → Q a) :
    Acts P may Q (Interp.ofExcept x) := by
  apply of_store_eq
  intro host m outcome m' _ heq
  obtain ⟨rfl, rfl⟩ := Prod.mk.inj (Option.some.inj heq)
  exact ⟨rfl, h⟩

/-- A result changes nothing. -/
theorem pure {a : α} (h : Q a) : Acts P may Q (Pure.pure a) := by
  have hok : ∀ b, (Except.ok a : Except EvalError α) = .ok b → Q b := by
    intro b hb
    rwa [← Except.ok.inj hb]
  exact ofExcept hok

/-- What never answers changes nothing. -/
theorem tooDeep : Acts P may Q (Interp.tooDeep : Interp α) :=
  fun _ _ _ _ _ heq => nomatch heq

/-- What changes only what may change, if it is permitted at all. -/
theorem permitted {permission : Bool} {x : Interp α} (hx : permission = true → Acts P may Q x) :
    Acts P may Q (Interp.permitted permission x) := by
  cases permission with
  | false => exact tooDeep
  | true => exact hx rfl

/-- One computation after the other. -/
theorem bind {x : Interp α} {f : α → Interp β} (hx : Acts P may Q x)
    (hf : ∀ a, Q a → Acts P may R (f a)) : Acts P may R (x >>= f) := by
  intro host m outcome m' hall heq
  rcases Interp.bind_eq_some_iff.1 heq with ⟨e, hanswer, rfl⟩ | ⟨a, m₁, hanswer, hnext⟩
  · obtain ⟨hfirst, -⟩ := hx host m _ m' hall hanswer
    exact ⟨hfirst, fun a ha => nomatch ha⟩
  · obtain ⟨hfirst, hresult⟩ := hx host m _ m₁ hall hanswer
    obtain ⟨hrest, hresult'⟩ := hf a (hresult a rfl) host m₁ outcome m' (hfirst.all hall) hnext
    -- What is new for the second computation is new for both.
    have hmay : ∀ b, may b ∨ m₁.store.tables.size ≤ b → may b ∨ m.store.tables.size ≤ b :=
      fun b hb => hb.imp_right (Nat.le_trans hfirst.size_le)
    exact ⟨hfirst.trans (hrest.mono hmay), hresult'⟩

/-- Another error changes nothing else. -/
theorem mapError {x : Interp α} (f : EvalError → EvalError) (hx : Acts P may Q x) :
    Acts P may Q (x.mapError f) := by
  intro host m outcome m' hall heq
  obtain ⟨first, hanswer, rfl⟩ := Interp.mapError_eq_some_iff.1 heq
  obtain ⟨hevolves, hresult⟩ := hx host m first m' hall hanswer
  exact ⟨hevolves, fun a ha => hresult a (Interp.eq_ok_of_mapError ha)⟩

/-- More tables may change. -/
theorem mono {x : Interp α} (hx : Acts P may Q x) (hmay : ∀ a, may a → may' a) :
    Acts P may' Q x := by
  intro host m outcome m' hall heq
  obtain ⟨hevolves, hresult⟩ := hx host m outcome m' hall heq
  exact ⟨hevolves.mono fun a ha => ha.imp_left (hmay a), hresult⟩

/-- Printing leaves the store as it is. -/
theorem printLine (line : String) : Acts P may (fun _ => True) (Interp.printLine line) := by
  refine of_store_eq fun host m outcome m' _ heq => ?_
  obtain ⟨rfl, rfl⟩ := Prod.mk.inj (Option.some.inj heq)
  exact ⟨rfl, fun _ _ => trivial⟩

/-- Reading leaves the store as it is. -/
theorem readScript (path : String) : Acts P may (fun _ => True) (Interp.readScript path) := by
  refine of_store_eq fun host m outcome m' _ heq => ?_
  obtain ⟨rfl, rfl⟩ := Prod.mk.inj (Option.some.inj heq)
  exact ⟨rfl, fun _ _ => trivial⟩

/-- Definitions in a scope change its own table, if this may be. -/
theorem defineAll {scope : Scope} (hmay : may scope.table) {bindings : List (String × Value)}
    (hbindings : ∀ b ∈ bindings, P b.2) :
    Acts P may (fun _ => True) (Interp.changeStore (·.defineAll scope bindings)) := by
  intro host m outcome m' _ heq
  obtain ⟨rfl, rfl⟩ := Prod.mk.inj (Option.some.inj heq)
  exact ⟨Store.Evolves.refl.defineAll (.inl hmay) hbindings, fun _ _ => trivial⟩

/-- A new scope, and then a computation that may also change the table of this scope. -/
theorem newScope_bind {f : Store Value → Store Value × Scope} {table : Table Value}
    {enclosing : List Nat}
    (hf : ∀ s, f s = ((s.alloc table).1, ⟨s.tables.size, enclosing⟩)) (htable : table.All P)
    {k : Scope → Interp α}
    (hk : ∀ n, Acts P (fun a => may a ∨ a = n) Q (k ⟨n, enclosing⟩)) :
    Acts P may Q (Interp.newScope f >>= k) := by
  intro host m outcome m' hall heq
  have hnew : (Interp.newScope f >>= k) host m
      = k (f m.store).2 host ⟨(f m.store).1, m.printed, m.requests, m.input⟩ := rfl
  rw [hnew, hf] at heq
  obtain ⟨hevolves, hresult⟩ := hk m.store.tables.size host _ outcome m' (hall.alloc htable) heq
  have hsize : (m.store.alloc table).1.tables.size = m.store.tables.size + 1 :=
    Store.size_alloc m.store table
  have hfirst : m.store.Evolves P (fun a => may a ∨ m.store.tables.size ≤ a)
      (m.store.alloc table).1 := Store.Evolves.refl.alloc htable
  refine ⟨hfirst.trans (hevolves.mono ?_), hresult⟩
  rintro a ((ha | rfl) | ha)
  · exact .inl ha
  · exact .inr (Nat.le_refl _)
  · change (m.store.alloc table).1.tables.size ≤ a at ha
    exact .inr (by omega)

end Interp.Acts

/-! ## All of the interpreter -/

section

variable (hP : ∀ v : Value, v.isFinal = true → P v)

include hP

/-- What a builtin gets out of arguments with a property has it too, and only `def` reaches the
root. -/
theorem Builtin.yields_final {global : Prop} {b : Builtin} {args : List Value}
    (hdefine : b = .define → global) (hargs : ∀ v ∈ args, P v) :
    b.deed.Yields P (fun _ => True) global args := by
  have hanswer : ∀ {x : Primitive.Outcome Value}, Primitive.Final x → ∀ v, x = .ok v → P v :=
    fun hx v hv => hP v (hx v hv)
  have hbound : ∀ (f : Builtin) bound, Primitive.bindings f args = .ok bound →
      ∀ binding ∈ bound, P binding.2 :=
    fun _ _ hbound _ hbinding => hargs _ (Primitive.mem_of_mem_bindings hbound hbinding)
  cases b with
  | add | subtract | multiply | divide => exact hanswer Primitive.final_arithmetic
  | greater | greaterEq | less | lessEq => exact hanswer Primitive.final_compare
  | head | tail | join | equal | unequal => exact hanswer (.bind fun _ => .ok rfl)
  | raise => exact hanswer (.bind fun _ => .bind fun _ => .error _)
  | list => exact hanswer (.ok rfl)
  | evaluate | branch => exact fun _ _ => trivial
  | define => exact ⟨fun _ => hdefine rfl, hbound .define⟩
  | assign => exact ⟨fun h => absurd h Bool.false_ne_true, hbound .assign⟩
  | lambda => exact fun _ _ _ => trivial
  | print | load => exact trivial

omit hP

/-- The knowledge which tables may change. It grows when more of them may. Names are bound in the
root only if `global` holds. -/
def Knowledge.evolving (hP : ∀ v : Value, v.isFinal = true → P v) (global : Prop) :
    Knowledge (Nat → Prop) where
  Grows may may' := ∀ a, may a → may' a
  Inside may scope := ∀ a, scope.MayChange global a → may a
  Around may scope := global → may scope.root.table
  Code _ _ := True
  Result _ v := P v
  Global := global
  Allowed b _ := b = .define → global
  grows_refl _ _ h := h
  grows_trans h h' a ha := h' a (h a ha)
  inside_mono h hgrows a ha := hgrows a (h a ha)
  around_mono h hgrows hglobal := hgrows _ (h hglobal)
  around_of_inside h hglobal := h _ (.inr ⟨hglobal, rfl⟩)
  code_mono h _ := h
  result_mono h _ := h
  result_unit _ := hP _ rfl
  result_qexpr _ _ _ := hP _ rfl
  result_of_code hv _ := hP _ hv
  code_of_sexpr _ _ _ := trivial
  code_of_read _ := trivial
  code_of_lambda _ := trivial
  yields hdefine hargs := Builtin.yields_final hP hdefine hargs

/-- All of the interpreter changes only tables that it may change and those it makes itself. -/
def Interp.actsSimulation (hP : ∀ v : Value, v.isFinal = true → P v) (global : Prop) :
    Simulation (Knowledge.evolving hP global) Unit where
  Runs may x := Acts P may P (x ())
  ofExcept h := .ofExcept h
  bind {may _ _} hx hk := hx.bind fun v hv => hk may v (fun _ ha => ha) hv
  mapError g hx := hx.mapError g
  inspectStore {may _ _ _} hk := fun host m outcome m' hall heq =>
    hk may m.store (fun _ ha => ha) hall host m outcome m' hall heq
  define {_ scope inRoot _} hscope hroot hbound := by
    have htarget : scope.MayChange global (scope.target inRoot).table := by
      cases inRoot with
      | false => exact .inl rfl
      | true => exact .inr ⟨hroot rfl, rfl⟩
    exact Acts.bind (Acts.defineAll (hscope _ htarget) hbound) fun _ _ => .pure (hP _ rfl)
  printLine _ line := (Acts.printLine line).bind fun _ _ => .pure (hP _ rfl)
  readScript {may path _} hk :=
    (Acts.readScript path).bind fun source _ => hk may source fun _ ha => ha
  within {may scope _ _} hscope htable hk := by
    refine Acts.newScope_bind (fun _ => rfl) htable fun n => ?_
    refine hk (fun a => may a ∨ a = n) ⟨n, scope.chain⟩ (fun _ ha => .inl ha) ?_
    rintro a (rfl | ⟨hglobal, rfl⟩)
    · exact .inr rfl
    · rw [Scope.root_within]
      exact .inl (hscope hglobal)
  child _ _ _ := Acts.newScope_bind (fun _ => rfl) Table.All.empty fun _ => .pure (hP _ rfl)
  alone _ htable _ := Acts.newScope_bind (fun _ => rfl) htable fun _ => .pure (hP _ rfl)

end

namespace Evaluator.Acts

variable (hP : ∀ v : Value, v.isFinal = true → P v) {f : Evaluator} {global : Prop} {scope : Scope}

/-- An evaluator in a scope that may change more. -/
theorem respects (h : f.Acts P global) :
    (Interp.actsSimulation hP global).Respects fun _ => f :=
  fun _ scope v hscope _ => (h scope v).mono hscope

variable {hP} in
/-- An evaluator changes the tables of its scope, as far as they may change. -/
theorem of_respects (h : (Interp.actsSimulation hP global).Respects fun _ => f) :
    f.Acts P global :=
  fun scope v => h (scope.MayChange global) scope v (fun _ ha => ha) trivial

include hP

/-- The call of a lambda changes no table that was there but, if `global` holds, that of the
root. -/
theorem invoke (h : f.Acts P global) (params : List String) (body : List Value)
    (captured : Scope) {args : List Value} (hargs : ∀ v ∈ args, P v) :
    Interp.Acts P (fun a => global ∧ a = scope.root.table) P
      (Invoke.invoke f params body captured args scope) :=
  Simulation.invoke (h.respects hP) (fun hglobal => ⟨hglobal, rfl⟩) params trivial captured
    hargs

/-- An application of a function, which is `def` only if names may be bound in the root. -/
theorem applyWith (h : f.Acts P global) {args : List Value} (hargs : ∀ v ∈ args, P v)
    {function : Value} (hdefine : function = .builtin .define → global) :
    Interp.Acts P (scope.MayChange global) P (Eval.applyWith f scope args function) :=
  Simulation.applyWith (h.respects hP) (fun _ ha => ha) hargs
    (fun _ hfunction hb => hdefine (hb ▸ hfunction)) fun _ _ _ _ => trivial

/-- The run of a source. -/
theorem runSource (h : f.Acts P global) (source : String) :
    Interp.Acts P (scope.MayChange global) P (Program.runSource f scope source) :=
  Simulation.runSource (h.respects hP) (fun _ ha => ha) source

end Evaluator.Acts

namespace Eval

variable (hP : ∀ v : Value, v.isFinal = true → P v)

include hP

/-- Evaluation under a supervisor changes the tables of its scope and those it makes, and that of
the root only if some `def` is permitted; what it binds and answers has every property that final
values have. -/
theorem supervised_acts {global : Prop} {permits : Event → Bool} (hpermits : ∀ scope args,
      permits (.application scope (.builtin .define) args) = true → global) (depth : Nat) :
    Evaluator.Acts P global (supervised permits depth) := by
  induction depth with
  | zero => exact fun scope v => Interp.Acts.tooDeep
  | succ depth ih =>
    have hstep : (Interp.actsSimulation hP global).Respects fun _ =>
        stepSupervised permits (supervised permits depth) := by
      refine Simulation.step (ih.respects hP) fun may scope function args hscope _ hargs => ?_
      refine Interp.Acts.permitted fun hpermitted => (ih.applyWith hP hargs ?_).mono hscope
      rintro rfl
      exact hpermits scope args hpermitted
    exact fun scope v => Interp.Acts.permitted fun _ => Evaluator.Acts.of_respects hstep scope v

/-- Evaluation changes the tables of its scope and of the root, and those it makes. -/
theorem evaluate_acts (depth : Nat) : Evaluator.Acts P True (evaluate depth) := by
  rw [← watched_unforbidden]
  exact supervised_acts hP (fun _ _ _ => trivial) depth

end Eval

/-- A call changes the tables of its scope and of the root, and those it makes. -/
theorem Call.perform_acts (hP : ∀ v : Value, v.isFinal = true → P v) {f : Evaluator}
    {scope : Scope} (h : f.Acts P True) {call : Call} (hcall : call.AllArguments P) :
    Interp.Acts P (scope.MayChange True) P (call.perform f scope) := by
  refine Simulation.performBy (fun _ => Eval.applyWith f) (h.respects hP) (fun _ ha => ha)
    (fun _ _ => trivial) (fun _ _ => trivial) ?_
  rintro function args rfl
  exact h.applyWith hP hcall fun _ => trivial

end QLisp
