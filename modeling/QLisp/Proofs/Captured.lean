import QLisp.Proofs.Currying
import QLisp.Proofs.Separation

/-!
# Captured bindings never change

A run starts with the builtins in a root scope and goes on by calls of the interpreter, by new
scopes and by definitions, in the scopes that it has. Its moments are the pauses between the calls
and all that happens during the calls: every evaluation and every application, with the machine it
starts from. Loading a prelude is a sequence of such calls.

The table that a lambda holds is the same at all moments of a run. It is empty if the lambda was
made by `\`; if the lambda is a partial application it is the table of the function with the
parameters bound so far. The argument is that the worlds of `QLisp.Proofs.Separation` grow along a
run (`Pause.Step.exists_world`), so that the last of them has come after all moments
(`Run.exists_world`).

The statement is `Run.captured_tables_stay`.
-/

set_option autoImplicit false

namespace QLisp

/-- The machine with a new table. -/
def Machine.alloc (m : Machine) (table : Table Value) : Machine :=
  ⟨(m.store.alloc table).1, m.printed, m.requests, m.input⟩

namespace Call

/-- The values that a call starts from. -/
def values : Call → List Value
  | evaluate v => [v]
  | apply function args => function :: args
  | run program => [program]
  | runSource _ => []

/-- The application that a call is for happens first. -/
theorem happens_apply (function : Value) (args : List Value) (depth : Nat) (scope : Scope)
    (host : Host) (m : Machine) :
    (apply function args).Happens depth scope host m (.application scope function args) m := by
  intro permits hforbidden
  exact if_neg (by simp [hforbidden])

/-- A call leads from a world to later worlds, also on the way. -/
theorem perform_tracks {w : World} {scope : Scope} (hscope : w.Free scope) {call : Call}
    (hvalues : ∀ v ∈ call.values, w.Holds v) (depth : Nat) :
    Interp.Tracks w World.Holds (call.perform (Eval.evaluate depth) scope)
      fun permits => call.watched permits depth scope := by
  have hobserved := Eval.observed_tracks depth
  refine Simulation.performBy (Eval.applyObserved depth) hobserved hscope ?_ ?_ ?_
  · rintro v rfl
    exact hvalues v List.mem_cons_self
  · rintro program rfl
    exact hvalues program List.mem_cons_self
  · rintro function args rfl
    have hcall := List.forall_mem_cons.1 hvalues
    exact Eval.applyObserved_tracks hobserved hscope hcall.2 hcall.1

/-- Whatever happens during a call that ends is known to the world it leads to. -/
theorem exists_world {w : World} {scope : Scope} (hscope : w.Free scope) {call : Call}
    (hvalues : ∀ v ∈ call.values, w.Holds v) {depth : Nat} {host : Host} {m m' : Machine}
    {outcome : Except EvalError Value} (hstore : m.store = w.store)
    (heq : call.perform (Eval.evaluate depth) scope host m = some (outcome, m')) :
    ∃ w' : World, w'.store = m'.store ∧ w.Grows w' ∧ (∀ v, outcome = .ok v → w'.Holds v) ∧
      ∀ e n, call.Happens depth scope host m e n → w'.Remembers e n := by
  classical
  obtain ⟨w', hw', hgrows, hresult, hwatched⟩ :=
    perform_tracks hscope hvalues depth host m outcome m' hstore heq
  refine ⟨w', hw', hgrows, hresult, ?_⟩
  intro e n hhappens
  -- The supervisor who permits what the world remembers lets the call end.
  refine Classical.byContradiction fun hnot => ?_
  have hnone := hhappens (fun e n => decide (w'.Remembers e n)) (decide_eq_false hnot)
  have hsome := hwatched w' (fun e n => decide (w'.Remembers e n)) (.refl w')
    fun e n h => decide_eq_true h
  cases hnone.symm.trans hsome

end Call

/-! ## What makes a lambda -/

/-- The table with names bound to values from left to right. -/
def Table.bindAll (t : Table Value) (bindings : List (String × Value)) : Table Value :=
  bindings.foldl (fun t binding => t.insert binding.1 binding.2) t

/-- A lambda that is written captures the next table, which is empty. -/
theorem Eval.applyWith_lambda_of_parts (evaluate : Evaluator) (scope : Scope) {args : List Value}
    (host : Host) (m : Machine) {params : List String} {body : List Value}
    (hparts : Primitive.lambdaParts args = .ok (params, body)) :
    applyWith evaluate scope args (.builtin .lambda) host m
      = some (.ok (.lambda params body ⟨m.store.tables.size, scope.chain⟩), m.alloc .empty) := by
  show (Interp.ofExcept (Primitive.lambdaParts args) >>= _) host m = _
  rw [hparts]
  rfl

namespace Invoke

/-- Arguments that are not too many are bound in order, and the other parameters are left. -/
theorem bindArguments_of_few (table : Table Value) {params : List String} {args : List Value}
    (hfew : args.length ≤ params.length) (hnames : restMarker ∉ params.take args.length) :
    bindArguments table params args
      = .ok (table.bindAll (params.zip args), params.drop args.length) := by
  induction args generalizing table params with
  | nil =>
    rw [bindArguments, List.zip_nil_right]
    rfl
  | cons arg args ih =>
    cases params with
    | nil => simp at hfew
    | cons param params =>
      rw [List.length_cons, List.take_succ_cons, List.mem_cons, not_or] at hnames
      rw [bindArguments_of_ne _ _ _ _ (Ne.symm hnames.1),
        ih _ (Nat.le_of_succ_le_succ hfew) hnames.2]
      rfl

/-- A lambda that gets too few arguments makes another one with the next table. -/
theorem invoke_of_few (evaluate : Evaluator) {params : List String} (body : List Value)
    (captured : Scope) {args : List Value} (caller : Scope) (host : Host) (m : Machine)
    (hfew : args.length < params.length) (hnames : restMarker ∉ params.take args.length) :
    invoke evaluate params body captured args caller host m
      = some (.ok (.lambda (params.drop args.length) body ⟨m.store.tables.size, []⟩),
          m.alloc ((m.store.tableAt captured.table).bindAll (params.zip args))) := by
  apply invoke_of_bound evaluate host m body captured caller
  · exact bindArguments_of_few _ (Nat.le_of_lt hfew) hnames
  · intro hnil
    have hlength := List.drop_eq_nil_iff.1 hnil
    omega

end Invoke

/-! ## Runs -/

/-- A pause of a run between two calls: the machine, the scopes in which calls are made, and the
results there are. -/
structure Pause where
  machine : Machine
  scopes : List Scope
  values : List Value

/-- A moment of a run: a pause, or something that happens during a call. -/
inductive Moment where
  | pause (s : Pause)
  | event (e : Event) (m : Machine)

namespace Moment

/-- The machine of a moment. -/
def machine : Moment → Machine
  | pause s => s.machine
  | event _ m => m

/-- The values at hand. -/
def values : Moment → List Value
  | pause s => s.values
  | event e _ => e.values

/-- Whether there is a table at an address. -/
def Has (x : Moment) (a : Nat) : Prop :=
  a < x.machine.store.tables.size

/-- A table of a moment. -/
def tableAt (x : Moment) (a : Nat) : Table Value :=
  x.machine.store.tableAt a

/-- A table is captured if a lambda holds it, in a value at hand or in a value bound in a table. -/
def Captures (x : Moment) (a : Nat) : Prop :=
  (∃ v ∈ x.values, a ∈ v.captures) ∨
    ∃ b, ∃ entry ∈ (x.tableAt b).entries, a ∈ entry.2.captures

/-- A lambda that is applied is mentioned. -/
theorem captures_application (scope : Scope) (params : List String) (body : List Value)
    (captured : Scope) (args : List Value) (m : Machine) :
    (event (.application scope (.lambda params body captured) args) m).Captures captured.table :=
  .inl ⟨_, List.mem_cons_self, List.mem_cons_self⟩

end Moment

namespace Pause

/-- The pause after a call that has left the machine `m`. -/
def next (s : Pause) (m : Machine) : Except EvalError Value → Pause
  | .ok v => ⟨m, s.scopes, v :: s.values⟩
  | .error _ => ⟨m, s.scopes, s.values⟩

/-- A value whose lambdas are there already. -/
def Knows (s : Pause) (v : Value) : Prop :=
  ∀ a ∈ v.captures, (Moment.pause s).Captures a

/-- A pause knows its values. -/
theorem knows_of_mem {s : Pause} {v : Value} (hv : v ∈ s.values) : s.Knows v :=
  fun _ ha => .inl ⟨v, hv, ha⟩

/-- A value that captures nothing is known anyway. -/
theorem knows_of_nil {s : Pause} {v : Value} (hv : v.captures = []) : s.Knows v := by
  intro a ha
  rw [hv] at ha
  cases ha

/-- How a run goes on, and what happens then: by a call in one of the scopes, which ends with a
result or an error; by a new scope inside of another one; by a definition; or by something that
leaves the tables alone. -/
inductive Step (s : Pause) : Pause → (Event → Machine → Prop) → Prop
  | call {scope : Scope} (hscope : scope ∈ s.scopes) {call : Call}
    (hvalues : ∀ v ∈ call.values, s.Knows v) (depth : Nat) (host : Host)
    {outcome : Except EvalError Value} {m : Machine}
    (heq : call.perform (Eval.evaluate depth) scope host s.machine = some (outcome, m)) :
    Step s (s.next m outcome) (call.Happens depth scope host s.machine)
  | child {scope : Scope} (hscope : scope ∈ s.scopes) :
    Step s ⟨s.machine.alloc .empty,
      ⟨s.machine.store.tables.size, scope.chain⟩ :: s.scopes, s.values⟩ fun _ _ => False
  | define {scope : Scope} (hscope : scope ∈ s.scopes) (name : String) {v : Value}
    (hv : s.Knows v) :
    Step s ⟨{ s.machine with store := s.machine.store.define scope name v }, s.scopes, s.values⟩
      fun _ _ => False
  | other {m : Machine} (h : m.store = s.machine.store) :
    Step s ⟨m, s.scopes, s.values⟩ fun _ _ => False

end Pause

/-- A run that has come to a pause, with its moments so far; it starts with the builtins in a root
scope. -/
inductive Run : Pause → (Moment → Prop) → Prop
  | start {m : Machine} (h : m.store = Machine.withBuiltins.1.store) :
    Run ⟨m, [Machine.withBuiltins.2], []⟩ fun x => x = .pause ⟨m, [Machine.withBuiltins.2], []⟩
  | step {s t : Pause} {past : Moment → Prop} {happens : Event → Machine → Prop}
    (h : Run s past) (hstep : s.Step t happens) :
    Run t fun x => past x ∨ x = .pause t ∨ ∃ e m, happens e m ∧ x = .event e m

/-! ## What a world knows of a run -/

namespace World

variable {w w' final : World}

/-- What holds after a machine in a world holds after it in the later ones. -/
theorem After.mono {m : Machine} {P : World → Prop} (h : w.After m P) (hw : w.Grows w') :
    w'.After m P := by
  obtain ⟨w₀, hstore, hgrows, hP⟩ := h
  exact ⟨w₀, hstore, hgrows.trans hw, hP⟩

/-- An event that was remembered stays so. -/
theorem Remembers.mono {e : Event} {m : Machine} (h : w.Remembers e m) (hw : w.Grows w') :
    w'.Remembers e m := by
  refine ⟨h.values.mono hw, ?_⟩
  intro scope function args he
  obtain ⟨depth, host, outcome, m', heq, hanswer⟩ := h.answer scope function args he
  exact ⟨depth, host, outcome, m', heq, hanswer.mono hw⟩

/-- A table captured at last, if it was there at an earlier time, has not changed since. -/
theorem After.tableAt_eq {m : Machine} {P : World → Prop} (h : final.After m P) {a : Nat}
    (ha : a ∈ final.captured) (hlt : a < m.store.tables.size) :
    m.store.tableAt a = final.store.tableAt a := by
  obtain ⟨w, hstore, hgrows, -⟩ := h
  rw [← hstore] at hlt ⊢
  exact (hgrows.tableAt_eq a (hgrows.mem_of_lt a ha hlt)).symm

/-- A world that has come after a moment. -/
def Recalls (final : World) : Moment → Prop
  | .pause s => final.After s.machine fun w => ∀ v ∈ s.values, w.Holds v
  | .event e m => final.Remembers e m

/-- A moment that was recalled stays so. -/
theorem Recalls.mono {x : Moment} (h : w.Recalls x) (hw : w.Grows w') : w'.Recalls x := by
  cases x with
  | pause s => exact After.mono h hw
  | event e m => exact Remembers.mono h hw

/-- After a moment that is recalled, its values are held. -/
theorem Recalls.after {x : Moment} (h : final.Recalls x) :
    final.After x.machine fun w => ∀ v ∈ x.values, w.Holds v := by
  cases x with
  | pause s => exact h
  | event e m => exact h.values

/-- A table that a moment captures is captured in its world. -/
theorem mem_of_captures {x : Moment} (hstore : w.store = x.machine.store)
    (hvalues : ∀ v ∈ x.values, w.Holds v) {a : Nat} (ha : x.Captures a) : a ∈ w.captured := by
  rcases ha with ⟨v, hv, ha⟩ | ⟨b, entry, hentry, ha⟩
  · exact hvalues v hv ha
  · rw [Moment.tableAt, ← hstore] at hentry
    exact w.all_captured b entry hentry ha

/-- A captured table is in the end what it was at a moment. -/
theorem Recalls.tableAt_eq {x : Moment} (h : final.Recalls x) {a : Nat}
    (ha : a ∈ final.captured) (hlt : x.Has a) : x.tableAt a = final.store.tableAt a :=
  h.after.tableAt_eq ha hlt

/-- A table that a moment captured is captured in the end, and was there at that moment. -/
theorem Recalls.mem_captured {x : Moment} (h : final.Recalls x) {a : Nat} (ha : x.Captures a) :
    a ∈ final.captured ∧ x.Has a := by
  obtain ⟨w, hstore, hgrows, hvalues⟩ := h.after
  have hmem := mem_of_captures hstore hvalues ha
  refine ⟨hgrows.subset hmem, ?_⟩
  rw [Moment.Has, ← hstore]
  exact w.captured_lt a hmem

/-- The table that an application has made for its answer is captured, and is still the same. -/
theorem Remembers.tableAt_answer {scope : Scope} {function : Value} {args : List Value}
    {m : Machine} (h : final.Remembers (.application scope function args) m)
    {params : List String} {body : List Value} {enclosing : List Nat} {table : Table Value}
    (hanswer : ∀ depth host,
      Eval.applyWith (Eval.evaluate depth) scope args function host m
        = some (.ok (.lambda params body ⟨m.store.tables.size, enclosing⟩), m.alloc table)) :
    m.store.tables.size ∈ final.captured ∧
      final.store.tableAt m.store.tables.size = table := by
  obtain ⟨depth, host, outcome, m', heq, hafter⟩ := h.answer scope function args rfl
  rw [hanswer depth host] at heq
  obtain ⟨rfl, rfl⟩ := Prod.mk.inj (Option.some.inj heq)
  have hmem : m.store.tables.size ∈ final.captured := by
    obtain ⟨w, -, hgrows, hv⟩ := hafter
    exact hgrows.subset (holds_lambda_iff.1 (hv _ rfl)).1
  refine ⟨hmem, ?_⟩
  rw [← hafter.tableAt_eq hmem]
  · exact Store.tableAt_alloc_self m.store table
  · show _ < (m.store.alloc table).1.tables.size
    rw [Store.size_alloc]
    exact Nat.lt_succ_self _

end World

namespace Pause

/-- A world at a pause: the scopes work in tables that no lambda holds. -/
structure Fits (s : Pause) (w : World) : Prop where
  store_eq : w.store = s.machine.store
  free : ∀ scope ∈ s.scopes, w.Free scope
  holds : ∀ v ∈ s.values, w.Holds v

/-- What a pause knows is held in the world that it fits. -/
theorem Fits.of_knows {s : Pause} {w : World} (h : s.Fits w) {v : Value} (hv : s.Knows v) :
    w.Holds v :=
  fun _ ha => World.mem_of_captures (x := .pause s) h.store_eq h.holds (hv _ ha)

/-- After a call, the pause fits the world that the call leads to. -/
theorem Fits.next {s : Pause} {w w' : World} (h : s.Fits w) (hgrows : w.Grows w') {m : Machine}
    (hstore : w'.store = m.store) {outcome : Except EvalError Value}
    (hresult : ∀ v, outcome = .ok v → w'.Holds v) : (s.next m outcome).Fits w' := by
  have hfree : ∀ scope ∈ s.scopes, w'.Free scope := fun scope hs => (h.free scope hs).mono hgrows
  have hholds : ∀ v ∈ s.values, w'.Holds v := fun v hv => (h.holds v hv).mono hgrows
  cases outcome with
  | ok v => exact ⟨hstore, hfree, List.forall_mem_cons.2 ⟨hresult v rfl, hholds⟩⟩
  | error e => exact ⟨hstore, hfree, hholds⟩

/-- What one step of a run keeps. -/
theorem Step.exists_world {s t : Pause} {happens : Event → Machine → Prop}
    (hstep : s.Step t happens) {w : World} (h : s.Fits w) :
    ∃ w', t.Fits w' ∧ w.Grows w' ∧ ∀ e m, happens e m → w'.Remembers e m := by
  have hmono : ∀ {w' : World} {scopes : List Scope} {m : Machine}, w.Grows w' →
      w'.store = m.store → (∀ scope ∈ scopes, w'.Free scope) →
      (⟨m, scopes, s.values⟩ : Pause).Fits w' :=
    fun hgrows hstore hscopes => ⟨hstore, hscopes, fun v hv => (h.holds v hv).mono hgrows⟩
  cases hstep with
  | call hscope hvalues depth host heq =>
    obtain ⟨w', hstore, hgrows, hresult, hhappens⟩ := Call.exists_world (h.free _ hscope)
      (fun v hv => h.of_knows (hvalues v hv)) h.store_eq.symm heq
    exact ⟨w', h.next hgrows hstore hresult, hgrows, hhappens⟩
  | @child scope hscope =>
    have hgrows := w.grows_alloc Table.All.empty false
    refine ⟨w.alloc Table.All.empty false, hmono hgrows ?_ ?_, hgrows, fun _ _ hno => hno.elim⟩
    · show (w.store.alloc .empty).1 = (s.machine.store.alloc .empty).1
      rw [h.store_eq]
    · rw [List.forall_mem_cons, ← h.store_eq]
      refine ⟨⟨World.working_alloc _, ?_⟩, fun scope hs => (h.free scope hs).mono hgrows⟩
      rw [Scope.root_within]
      exact ((h.free scope hscope).mono hgrows).2
  | @define scope hscope name v hv =>
    have hgrows := World.grows_define (h.free scope hscope).1 name (h.of_knows hv)
    refine ⟨w.define scope name (h.of_knows hv), hmono hgrows ?_ ?_, hgrows,
      fun _ _ hno => hno.elim⟩
    · show w.store.define scope name v = s.machine.store.define scope name v
      rw [h.store_eq]
    · exact fun scope hs => (h.free scope hs).mono hgrows
  | other hstore =>
    exact ⟨w, hmono (.refl w) (h.store_eq.trans hstore.symm) h.free, .refl w,
      fun _ _ hno => hno.elim⟩

end Pause

/-- The world of a root scope that binds nothing. -/
def World.newRoot : World where
  store := (Store.empty.newRoot : Store Value × Scope).1
  captured := []
  all_captured := Store.All.alloc (fun _ => Table.All.empty) Table.All.empty
  captured_lt := nofun

/-- The start is a world in which nothing is captured and the root is free. -/
theorem World.exists_withBuiltins : ∃ w : World,
    w.store = Machine.withBuiltins.1.store ∧ w.Free Machine.withBuiltins.2 := by
  have hroot : newRoot.Working (⟨0, []⟩ : Scope).table := ⟨Nat.zero_lt_one, nofun⟩
  have hbuiltins : ∀ binding ∈ Builtin.all.map fun b => (b.name, Value.builtin b),
      newRoot.Holds binding.2 := by
    intro binding hbinding
    obtain ⟨b, -, rfl⟩ := List.mem_map.1 hbinding
    exact List.nil_subset _
  obtain ⟨w, hstore, hgrows⟩ := exists_defineAll hroot hbuiltins
  exact ⟨w, hstore, hroot.mono hgrows, hroot.mono hgrows⟩

namespace Run

variable {s : Pause} {past : Moment → Prop}

/-- An application at a moment of a run makes a lambda, and at all moments of the run at which the
new table is there, it is the given one. -/
structure Makes (past : Moment → Prop) (scope : Scope) (function : Value) (args : List Value)
    (m : Machine) (params : List String) (body : List Value) (table : Table Value) : Prop where
  answer : ∃ enclosing, ∀ depth host,
    Eval.applyWith (Eval.evaluate depth) scope args function host m
      = some (.ok (.lambda params body ⟨m.store.tables.size, enclosing⟩), m.alloc table)
  stays : ∀ y, past y → y.Has m.store.tables.size → y.tableAt m.store.tables.size = table

/-- An application that answers a new lambda makes its table. -/
theorem makes_of_answer {w : World} (hpast : ∀ x, past x → w.Recalls x) {scope : Scope}
    {function : Value} {args : List Value} {m : Machine} {params : List String}
    {body : List Value} {enclosing : List Nat} {table : Table Value}
    (he : past (.event (.application scope function args) m))
    (hanswer : ∀ depth host, Eval.applyWith (Eval.evaluate depth) scope args function host m
      = some (.ok (.lambda params body ⟨m.store.tables.size, enclosing⟩), m.alloc table)) :
    Makes past scope function args m params body table := by
  refine ⟨⟨enclosing, hanswer⟩, ?_⟩
  intro y hy hlt
  obtain ⟨hmem, htable⟩ := World.Remembers.tableAt_answer (hpast _ he) hanswer
  rw [(hpast y hy).tableAt_eq hmem hlt, htable]

/-- What a whole run keeps: there is a world that has come after all its moments. -/
theorem exists_world (h : Run s past) : ∃ w, s.Fits w ∧ ∀ x, past x → w.Recalls x := by
  induction h with
  | @start m h =>
    obtain ⟨w, hstore, hfree⟩ := World.exists_withBuiltins
    have hfits : Pause.Fits ⟨m, [Machine.withBuiltins.2], []⟩ w := by
      refine ⟨hstore.trans h.symm, ?_, nofun⟩
      rw [List.forall_mem_singleton]
      exact hfree
    refine ⟨w, hfits, ?_⟩
    rintro x rfl
    exact ⟨w, hfits.store_eq, .refl w, hfits.holds⟩
  | @step s t past happens h hstep ih =>
    obtain ⟨w, hfits, hpast⟩ := ih
    obtain ⟨w', hfits', hgrows, hhappens⟩ := hstep.exists_world hfits
    refine ⟨w', hfits', ?_⟩
    rintro x (hx | rfl | ⟨e, m, he, rfl⟩)
    · exact (hpast x hx).mono hgrows
    · exact ⟨w', hfits'.store_eq, .refl w', hfits'.holds⟩
    · exact hhappens e m he

/-- At any two moments of a run, a table that a lambda holds at one of them is the same at the
other, if it is there at all. A lambda made by `\` holds the empty table at all moments of the run,
and a partial application of a lambda holds the table of that lambda with the parameters bound so
far, from left to right, whatever other applications of that lambda do. So all calls of a lambda
start from the same bindings, whoever makes them and however they end. -/
theorem captured_tables_stay (h : Run s past) :
    (∀ x y a, past x → past y → x.Captures a → x.Has a ∧ (y.Has a → y.tableAt a = x.tableAt a))
    ∧ (∀ scope args m params body,
      past (.event (.application scope (.builtin .lambda) args) m) →
      Primitive.lambdaParts args = .ok (params, body) →
      Makes past scope (.builtin .lambda) args m params body .empty)
    ∧ (∀ scope params body captured args m,
      past (.event (.application scope (.lambda params body captured) args) m) →
      args.length < params.length → Invoke.restMarker ∉ params.take args.length →
      Makes past scope (.lambda params body captured) args m (params.drop args.length) body
        ((m.store.tableAt captured.table).bindAll (params.zip args)))
    ∧ ∀ scope scope' params params' body body' captured args args' m m',
      past (.event (.application scope (.lambda params body captured) args) m) →
      past (.event (.application scope' (.lambda params' body' captured) args') m') →
      m'.store.tableAt captured.table = m.store.tableAt captured.table := by
  obtain ⟨w, -, hpast⟩ := h.exists_world
  refine ⟨?_, ?_, ?_, ?_⟩
  · intro x y a hx hy ha
    obtain ⟨hmem, hlt⟩ := (hpast x hx).mem_captured ha
    refine ⟨hlt, fun hlt' => ?_⟩
    rw [(hpast y hy).tableAt_eq hmem hlt', (hpast x hx).tableAt_eq hmem hlt]
  · intro scope args m params body he hparts
    apply makes_of_answer hpast he
    exact fun depth host =>
      Eval.applyWith_lambda_of_parts (Eval.evaluate depth) scope host m hparts
  · intro scope params body captured args m he hfew hnames
    apply makes_of_answer hpast he
    exact fun depth host =>
      Invoke.invoke_of_few (Eval.evaluate depth) body captured scope host m hfew hnames
  · intro scope scope' params params' body body' captured args args' m m' he he'
    obtain ⟨hmem, hlt⟩ := (hpast _ he).mem_captured (Moment.captures_application ..)
    obtain ⟨-, hlt'⟩ := (hpast _ he').mem_captured (Moment.captures_application ..)
    exact ((hpast _ he').tableAt_eq hmem hlt').trans ((hpast _ he).tableAt_eq hmem hlt).symm

/-- A lambda that gets one of its two arguments leaves its table as it is, and the new lambda has
one of its own. -/
theorem captured_tables_stay_partial :
    ∃ s past m, Run s past ∧
      past (.event (.application ⟨0, []⟩ (.lambda ["x", "y"] [.symbol "x"] ⟨1, [0]⟩)
        [.number ⟨7, 0⟩]) m) ∧
      s.values = [.lambda ["y"] [.symbol "x"] ⟨2, []⟩, .lambda ["x", "y"] [.symbol "x"] ⟨1, [0]⟩] ∧
      s.machine.store.tableAt 1 = .empty ∧
      s.machine.store.tableAt 2 = ⟨[("x", .number ⟨7, 0⟩)]⟩ := by
  let make : Call :=
    .apply (.builtin .lambda) [.qexpr [.symbol "x", .symbol "y"], .qexpr [.symbol "x"]]
  let f : Value := .lambda ["x", "y"] [.symbol "x"] ⟨1, [0]⟩
  let g : Value := .lambda ["y"] [.symbol "x"] ⟨2, []⟩
  let m₀ := Machine.withBuiltins.1
  let m₁ := m₀.alloc .empty
  let m₂ := m₁.alloc ⟨[("x", .number ⟨7, 0⟩)]⟩
  have hmake : make.perform (Eval.evaluate 0) ⟨0, []⟩ (fun _ => .input) m₀
      = some (.ok f, m₁) := rfl
  have hpartial : (Call.apply f [.number ⟨7, 0⟩]).perform (Eval.evaluate 0) ⟨0, []⟩
      (fun _ => .input) m₁ = some (.ok g, m₂) := rfl
  have hfail : (Call.apply g [.unit, .unit]).perform (Eval.evaluate 0) ⟨0, []⟩
      (fun _ => .input) m₂ = some (.error (.tooManyArguments 2 1), m₂) := rfl
  have h₀ : Run ⟨m₀, [⟨0, []⟩], []⟩ _ := .start rfl
  have h₁ := h₀.step (.call List.mem_cons_self (by
    simp only [make, Call.values, List.forall_mem_cons]
    exact ⟨Pause.knows_of_nil rfl, Pause.knows_of_nil rfl, Pause.knows_of_nil rfl, nofun⟩)
    0 _ hmake)
  have h₂ := h₁.step (.call List.mem_cons_self (by
    simp only [Call.values, List.forall_mem_cons]
    exact ⟨Pause.knows_of_mem List.mem_cons_self, Pause.knows_of_nil rfl, nofun⟩) 0 _ hpartial)
  have h₃ := h₂.step (.call List.mem_cons_self (by
    simp only [Call.values, List.forall_mem_cons]
    exact ⟨Pause.knows_of_mem List.mem_cons_self, Pause.knows_of_nil rfl, Pause.knows_of_nil rfl,
      nofun⟩) 0 _ hfail)
  obtain ⟨-, hlambda, hpart, -⟩ := captured_tables_stay h₃
  have hevent := Call.happens_apply f [.number ⟨7, 0⟩] 0 ⟨0, []⟩ (fun _ => .input) m₁
  refine ⟨_, _, m₁, h₃, .inl (.inr (.inr ⟨_, _, hevent, rfl⟩)), rfl, ?_, ?_⟩
  · have hmade := hlambda _ _ m₀ _ _ (.inl (.inl (.inr (.inr
      ⟨_, _, Call.happens_apply _ _ 0 _ _ _, rfl⟩)))) rfl
    exact hmade.stays _ (.inr (.inl rfl)) (show 1 < 3 by decide)
  · have hmade := hpart _ _ _ _ _ m₁ (.inl (.inr (.inr ⟨_, _, hevent, rfl⟩))) (by decide)
      (by decide)
    exact hmade.stays _ (.inr (.inl rfl)) (show 2 < 3 by decide)

end Run

end QLisp
