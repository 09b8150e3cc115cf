import QLisp.Eval.Basic
import QLisp.Proofs.View

/-!
# Two runs that look the same

Two machines may hold the same tables at different addresses, and their lambdas may have been made
in different places. A pair of views, one for each machine, says which addresses correspond and how
much of a lambda is compared: machines look the same if corresponding tables do, and if the
addresses that come next correspond as well.

No step of evaluation can tell such machines apart. Two computations look the same if from machines
that look the same they give answers that do: both are too deep, both fail with the same error, or
both have results that look the same, and the machines left behind look the same again. All parts
of the evaluator respect this relation, and `Eval.evaluate_same` says so for evaluation to any
depth.
-/

set_option autoImplicit false

namespace QLisp

/-- Two views, one for each of two runs. Where scopes correspond, the views show the same around
the tables captured in them. -/
structure ViewPair where
  left : View
  right : View
  around_eq : ∀ as bs : List Nat,
    as.map left.address = bs.map right.address → left.around as = right.around bs

namespace ViewPair

variable (p : ViewPair)

/-- Two values that look the same. -/
def SameValue (v w : Value) : Prop :=
  v.seen p.left = w.seen p.right

/-- Two lists of values that look the same. -/
def SameValues (vs ws : List Value) : Prop :=
  vs.map (Value.seen p.left) = ws.map (Value.seen p.right)

/-- Two tables that look the same. -/
def SameTable (t u : Table Value) : Prop :=
  t.seen p.left = u.seen p.right

/-- Two scopes whose tables correspond. -/
def SameScope (s t : Scope) : Prop :=
  s.chain.map p.left.address = t.chain.map p.right.address

/-- Two stores that look the same and will give corresponding addresses to new tables. -/
structure SameStore (s t : Store Value) : Prop where
  tables : ∀ a b, p.left.address a = p.right.address b → p.SameTable (s.tableAt a) (t.tableAt b)
  fresh : ∀ k, p.left.address (s.tables.size + k) = p.right.address (t.tables.size + k)

/-- Two machines that look the same. -/
structure SameMachine (m n : Machine) : Prop where
  store : p.SameStore m.store n.store
  printed : m.printed = n.printed
  requests : m.requests = n.requests
  input : m.input = n.input

variable {p}

/-- Values that look the same are shown alike. -/
theorem SameValue.render_eq {v w : Value} (h : p.SameValue v w) : v.render = w.render := by
  rw [← Value.render_seen p.left v, h, Value.render_seen]

/-- S-expressions look the same if their items do. -/
theorem sameValue_sexpr_iff {vs ws : List Value} :
    p.SameValue (.sexpr vs) (.sexpr ws) ↔ p.SameValues vs ws := by
  simp [SameValue, SameValues, Value.seen, Value.seenAll_eq_map]

/-- Lambdas that look the same have the same parameters, bodies that look the same and captured
tables that correspond. -/
theorem sameValue_lambda_iff {params params' : List String} {body body' : List Value}
    {captured captured' : Scope} :
    p.SameValue (.lambda params body captured) (.lambda params' body' captured')
      ↔ params = params' ∧ p.SameValues body body'
        ∧ captured.seen p.left = captured'.seen p.right := by
  simp [SameValue, SameValues, Value.seen, Value.seenAll_eq_map]

/-- Lists of values look the same if their first values and the others do. -/
theorem sameValues_cons_iff {v w : Value} {vs ws : List Value} :
    p.SameValues (v :: vs) (w :: ws) ↔ p.SameValue v w ∧ p.SameValues vs ws := by
  simp [SameValue, SameValues]

namespace SameScope

variable {s t : Scope}

/-- The tables of corresponding scopes correspond. -/
theorem table (h : p.SameScope s t) : p.left.address s.table = p.right.address t.table :=
  (List.cons.inj h).1

/-- The scopes around corresponding scopes correspond. -/
theorem enclosing (h : p.SameScope s t) :
    s.enclosing.map p.left.address = t.enclosing.map p.right.address :=
  (List.cons.inj h).2

/-- The roots of corresponding scopes correspond. -/
theorem root (h : p.SameScope s t) : p.SameScope s.root t.root := by
  have hlast : p.left.address (s.enclosing.getLastD s.table)
      = p.right.address (t.enclosing.getLastD t.table) := by
    have hs := List.getLastD_map (f := p.left.address) (l := s.enclosing) (a := s.table)
    have ht := List.getLastD_map (f := p.right.address) (l := t.enclosing) (a := t.table)
    rw [← hs, ← ht, h.enclosing, h.table]
  exact congrArg (fun a => [a]) hlast

/-- A lambda made in one scope looks the same as one made in the other. -/
theorem seen (h : p.SameScope s t) : s.seen p.left = t.seen p.right := by
  rw [Scope.seen, Scope.seen, h.table, p.around_eq _ _ h.enclosing]

end SameScope

namespace SameStore

variable {s t : Store Value}

/-- Corresponding addresses are both in use or both free. -/
theorem lt_iff (h : p.SameStore s t) {a b : Nat} (hab : p.left.address a = p.right.address b) :
    a < s.tables.size ↔ b < t.tables.size := by
  constructor
  · intro ha
    apply Nat.lt_of_not_le
    intro hb
    have hfresh := h.fresh (b - t.tables.size)
    rw [Nat.add_sub_of_le hb, ← hab] at hfresh
    have := p.left.address_injective _ _ hfresh
    omega
  · intro hb
    apply Nat.lt_of_not_le
    intro ha
    have hfresh := h.fresh (a - s.tables.size)
    rw [Nat.add_sub_of_le ha, hab] at hfresh
    have := p.right.address_injective _ _ hfresh
    omega

/-- A lookup walks through tables that look the same. -/
theorem get? (h : p.SameStore s t) {scope scope' : Scope} (hscope : p.SameScope scope scope')
    (name : String) :
    (s.get? scope name).map (Value.seen p.left)
      = (t.get? scope' name).map (Value.seen p.right) := by
  -- The walk goes through two lists of addresses that correspond one by one.
  have hwalk : ∀ as bs : List Nat, as.map p.left.address = bs.map p.right.address →
      (as.findSome? fun a => (s.tableAt a).get? name).map (Value.seen p.left)
        = (bs.findSome? fun b => (t.tableAt b).get? name).map (Value.seen p.right) := by
    intro as
    induction as with
    | nil =>
      intro bs hbs
      obtain rfl : bs = [] := by simpa using hbs.symm
      rfl
    | cons a as ih =>
      intro bs hbs
      cases bs with
      | nil => cases hbs
      | cons b bs =>
        obtain ⟨hhead, htail⟩ := List.cons.inj hbs
        have hget : ((s.tableAt a).get? name).map (Value.seen p.left)
            = ((t.tableAt b).get? name).map (Value.seen p.right) := by
          rw [← Table.get?_seen, ← Table.get?_seen, h.tables a b hhead]
        rw [List.findSome?_cons, List.findSome?_cons]
        cases hs : (s.tableAt a).get? name with
        | none =>
          rw [hs, Option.map_none, eq_comm, Option.map_eq_none_iff] at hget
          rw [hget]
          exact ih bs htail
        | some v =>
          rw [hs, Option.map_some, eq_comm, Option.map_eq_some_iff] at hget
          obtain ⟨w, hw, hwv⟩ := hget
          rw [hw, Option.map_some, Option.map_some, hwv]
  exact hwalk _ _ hscope

/-- After corresponding definitions the stores look the same. -/
theorem define (h : p.SameStore s t) {scope scope' : Scope}
    (hscope : p.SameScope scope scope') {v w : Value} (hv : p.SameValue v w) (name : String) :
    p.SameStore (s.define scope name v) (t.define scope' name w) := by
  refine ⟨?_, ?_⟩
  · intro a b hab
    by_cases ha : a < s.tables.size
    · rw [Store.tableAt_define s scope name v a ha,
        Store.tableAt_define t scope' name w b ((h.lt_iff hab).mp ha)]
      have hiff : scope.table = a ↔ scope'.table = b := by
        constructor
        · rintro rfl
          exact p.right.address_injective _ _ (hscope.table.symm.trans hab)
        · rintro rfl
          exact p.left.address_injective _ _ (hscope.table.trans hab.symm)
      by_cases htable : scope.table = a
      · rw [if_pos htable, if_pos (hiff.mp htable), SameTable, ← Table.insert_seen,
          ← Table.insert_seen, h.tables a b hab, hv]
      · rw [if_neg htable, if_neg (mt hiff.mpr htable)]
        exact h.tables a b hab
    · have hb : ¬ b < t.tables.size := mt (h.lt_iff hab).mpr ha
      rw [Store.tableAt_of_size_le _ a (by rw [Store.size_define]; omega),
        Store.tableAt_of_size_le _ b (by rw [Store.size_define]; omega)]
      rfl
  · intro k
    rw [Store.size_define, Store.size_define]
    exact h.fresh k

/-- After lists of corresponding definitions the stores look the same. -/
theorem defineAll (h : p.SameStore s t) {scope scope' : Scope}
    (hscope : p.SameScope scope scope') {bindings bindings' : List (String × Value)}
    (hbindings : bindings.map (Prod.map id (Value.seen p.left))
      = bindings'.map (Prod.map id (Value.seen p.right))) :
    p.SameStore (s.defineAll scope bindings) (t.defineAll scope' bindings') := by
  induction bindings generalizing s t bindings' with
  | nil =>
    obtain rfl : bindings' = [] := by simpa using hbindings.symm
    exact h
  | cons binding rest ih =>
    cases bindings' with
    | nil => cases hbindings
    | cons binding' rest' =>
      obtain ⟨hhead, htail⟩ := List.cons.inj hbindings
      obtain ⟨name, v⟩ := binding
      obtain ⟨name', w⟩ := binding'
      obtain ⟨hname, hvalue⟩ := Prod.mk.inj hhead
      obtain rfl : name = name' := hname
      exact ih (h.define hscope hvalue name) htail

/-- With new tables that look the same the stores look the same. -/
theorem alloc (h : p.SameStore s t) {table table' : Table Value}
    (htable : p.SameTable table table') :
    p.SameStore (s.alloc table).1 (t.alloc table').1 := by
  refine ⟨?_, ?_⟩
  · intro a b hab
    have hnew : a = s.tables.size ↔ b = t.tables.size := by
      have hfresh := h.fresh 0
      constructor
      · rintro rfl
        exact p.right.address_injective _ _ (hab.symm.trans hfresh)
      · rintro rfl
        exact p.left.address_injective _ _ (hab.trans hfresh.symm)
    rw [Store.tableAt_alloc, Store.tableAt_alloc]
    by_cases ha : a = s.tables.size
    · rw [if_pos ha, if_pos (hnew.mp ha)]
      exact htable
    · rw [if_neg ha, if_neg (mt hnew.mpr ha)]
      exact h.tables a b hab
  · intro k
    rw [Store.size_alloc, Store.size_alloc, Nat.add_assoc, Nat.add_assoc]
    exact h.fresh (1 + k)

/-- New scopes inside of corresponding ones correspond. -/
theorem within (h : p.SameStore s t) {table table' : Table Value}
    (htable : p.SameTable table table') {around around' : Scope}
    (haround : p.SameScope around around') :
    p.SameStore (s.within table around).1 (t.within table' around').1
      ∧ p.SameScope (s.within table around).2 (t.within table' around').2 := by
  refine ⟨h.alloc htable, ?_⟩
  show p.left.address s.tables.size :: around.chain.map p.left.address
    = p.right.address t.tables.size :: around'.chain.map p.right.address
  rw [haround]
  exact congrArg (· :: _) (h.fresh 0)

/-- New scopes with nothing around them correspond. -/
theorem alone (h : p.SameStore s t) {table table' : Table Value}
    (htable : p.SameTable table table') :
    p.SameStore (s.alone table).1 (t.alone table').1
      ∧ p.SameScope (s.alone table).2 (t.alone table').2 :=
  ⟨h.alloc htable, congrArg (fun a => [a]) (h.fresh 0)⟩

end SameStore

variable (p) in
/-- Two answers that look the same, where `R` compares results. -/
inductive SameAnswer {α β : Type} (R : α → β → Prop) :
    Option (Except EvalError α × Machine) → Option (Except EvalError β × Machine) → Prop where
  | tooDeep : SameAnswer R none none
  | result {a : α} {b : β} {m n : Machine} (hresult : R a b) (hmachine : p.SameMachine m n) :
    SameAnswer R (some (.ok a, m)) (some (.ok b, n))
  | failure (e : EvalError) {m n : Machine} (hmachine : p.SameMachine m n) :
    SameAnswer R (some (.error e, m)) (some (.error e, n))

variable (p) in
/-- Two computations that look the same: from machines that look the same they give answers that
do. -/
def SameRun {α β : Type} (R : α → β → Prop) (x : Interp α) (y : Interp β) : Prop :=
  ∀ host m n, p.SameMachine m n → p.SameAnswer R (x host m) (y host n)

variable (p) in
/-- Two evaluators that look the same. -/
def SameEvaluator (f g : Evaluator) : Prop :=
  ∀ s t v w, p.SameScope s t → p.SameValue v w → p.SameRun p.SameValue (f s v) (g t w)

namespace SameRun

variable {α β γ δ : Type} {R : α → β → Prop} {S : γ → δ → Prop}

/-- Two results. -/
theorem pure {a : α} {b : β} (h : R a b) : p.SameRun R (Pure.pure a) (Pure.pure b) :=
  fun _ _ _ hm => .result h hm

/-- The same error twice. -/
theorem fail {e e' : EvalError} (h : e = e') :
    p.SameRun R (Interp.fail e) (Interp.fail e') := by
  subst h
  exact fun _ _ _ hm => .failure e hm

/-- Two computations that never answer. -/
theorem tooDeep : p.SameRun R Interp.tooDeep Interp.tooDeep :=
  fun _ _ _ _ => .tooDeep

/-- One pair of computations after the other. -/
theorem bind {x : Interp α} {y : Interp β} {f : α → Interp γ} {g : β → Interp δ}
    (hxy : p.SameRun R x y) (hfg : ∀ a b, R a b → p.SameRun S (f a) (g b)) :
    p.SameRun S (x >>= f) (y >>= g) := by
  intro host m n hm
  have hanswer := hxy host m n hm
  rw [Interp.bind_apply, Interp.bind_apply]
  generalize x host m = left, y host n = right at hanswer ⊢
  cases hanswer with
  | tooDeep => exact .tooDeep
  | result hresult hmachine => exact hfg _ _ hresult host _ _ hmachine
  | failure e hmachine => exact .failure e hmachine

/-- Two computations whose errors are changed alike. -/
theorem mapError {x : Interp α} {y : Interp β} {f g : EvalError → EvalError}
    (hfg : ∀ e, f e = g e) (hxy : p.SameRun R x y) :
    p.SameRun R (x.mapError f) (y.mapError g) := by
  intro host m n hm
  have hanswer := hxy host m n hm
  unfold Interp.mapError
  generalize x host m = left, y host n = right at hanswer ⊢
  cases hanswer with
  | tooDeep => exact .tooDeep
  | result hresult hmachine => exact .result hresult hmachine
  | failure e hmachine =>
    show p.SameAnswer R (some (.error (f e), _)) (some (.error (g e), _))
    rw [hfg e]
    exact .failure (g e) hmachine

/-- Outcomes that are equal through two functions look the same if these decide what is
compared. -/
theorem ofExcept {x : Except EvalError α} {y : Except EvalError β} {f : α → γ} {g : β → γ}
    (h : x.map f = y.map g) :
    p.SameRun (fun a b => f a = g b) (Interp.ofExcept x) (Interp.ofExcept y) := by
  intro host m n hm
  cases x with
  | error e =>
    cases y with
    | error e' =>
      obtain rfl : e = e' := Except.error.inj h
      exact .failure e hm
    | ok b => cases h
  | ok a =>
    cases y with
    | error e => cases h
    | ok b => exact .result (Except.ok.inj h) hm

/-- Looking at stores that look the same. -/
theorem inspectStore {f : Store Value → α} {g : Store Value → β}
    (h : ∀ s t, p.SameStore s t → R (f s) (g t)) :
    p.SameRun R (Interp.inspectStore f) (Interp.inspectStore g) :=
  fun _ _ _ hm => .result (h _ _ hm.store) hm

/-- Changing stores that look the same. -/
theorem changeStore {f g : Store Value → Store Value}
    (h : ∀ s t, p.SameStore s t → p.SameStore (f s) (g t)) :
    p.SameRun (fun _ _ => True) (Interp.changeStore f) (Interp.changeStore g) :=
  fun _ _ _ hm => .result trivial ⟨h _ _ hm.store, hm.printed, hm.requests, hm.input⟩

/-- New scopes in stores that look the same. -/
theorem newScope {f g : Store Value → Store Value × Scope}
    (h : ∀ s t, p.SameStore s t → p.SameStore (f s).1 (g t).1 ∧ p.SameScope (f s).2 (g t).2) :
    p.SameRun p.SameScope (Interp.newScope f) (Interp.newScope g) := by
  intro host m n hm
  obtain ⟨hstore, hscope⟩ := h _ _ hm.store
  exact .result hscope ⟨hstore, hm.printed, hm.requests, hm.input⟩

/-- Printing the same line. -/
theorem printLine {line line' : String} (h : line = line') :
    p.SameRun (fun _ _ => True) (Interp.printLine line) (Interp.printLine line') := by
  subst h
  intro host m n hm
  refine .result trivial ⟨hm.store, ?_, hm.requests, hm.input⟩
  rw [hm.printed]

/-- Reading the same script. -/
theorem readScript (path : String) :
    p.SameRun (fun a b => a = b) (Interp.readScript path) (Interp.readScript path) := by
  intro host m n hm
  have hleft : p.SameMachine
      ⟨m.store, m.printed, m.requests.push path, (host.read path m.input).2⟩
      ⟨n.store, n.printed, n.requests.push path, (host.read path n.input).2⟩ := by
    refine ⟨hm.store, hm.printed, ?_, ?_⟩
    · rw [hm.requests]
    · rw [hm.input]
  change p.SameAnswer _
    (some ((host.read path m.input).1.mapError (.loadFailed path), _))
    (some ((host.read path n.input).1.mapError (.loadFailed path), _))
  rw [hm.input] at hleft ⊢
  cases (host.read path n.input).1 with
  | error reason => exact .failure _ hleft
  | ok source => exact .result rfl hleft

end SameRun

end ViewPair

open ViewPair

variable {p : ViewPair} {f g : Evaluator} {s t : Scope}

namespace Program

/-- Forms that look the same have runs that do. -/
theorem runForms_same (h : p.SameEvaluator f g) (hscope : p.SameScope s t) {last last' : Value}
    (hlast : p.SameValue last last') {forms forms' : List Value}
    (hforms : p.SameValues forms forms') :
    p.SameRun p.SameValue (runForms f s last forms) (runForms g t last' forms') := by
  induction forms generalizing last last' forms' with
  | nil =>
    obtain rfl : forms' = [] := by simpa [SameValues] using hforms.symm
    exact SameRun.pure hlast
  | cons form rest ih =>
    cases forms' with
    | nil => cases hforms
    | cons form' rest' =>
      obtain ⟨hform, hrest⟩ := sameValues_cons_iff.mp hforms
      refine SameRun.bind (SameRun.mapError ?_ (h s t form form' hscope hform)) ?_
      · intro e
        rw [hform.render_eq]
      · intro result result' hresult
        exact ih hresult hrest

/-- Programs that look the same have runs that do. -/
theorem run_same (h : p.SameEvaluator f g) (hscope : p.SameScope s t) {program program' : Value}
    (hprogram : p.SameValue program program') :
    p.SameRun p.SameValue (run f s program) (run g t program') := by
  cases program with
  | sexpr forms =>
    cases program' with
    | sexpr forms' =>
      have hforms : p.SameValues forms forms' := sameValue_sexpr_iff.mp hprogram
      have hunit : p.SameValue .unit .unit := rfl
      exact runForms_same h hscope hunit hforms
    | _ => simp [SameValue, Value.seen] at hprogram
  | _ =>
    cases program' with
    | sexpr forms' => simp [SameValue, Value.seen] at hprogram
    | _ => exact h s t _ _ hscope hprogram

/-- The same source has runs that look the same. -/
theorem runSource_same (h : p.SameEvaluator f g) (hscope : p.SameScope s t) (source : String) :
    p.SameRun p.SameValue (runSource f s source) (runSource g t source) := by
  have hread : (read source).map (Value.seen p.left) = (read source).map (Value.seen p.right) := by
    rw [read_seen, read_seen]
  refine SameRun.bind (SameRun.ofExcept hread) ?_
  intro program program' hprogram
  exact run_same h hscope hprogram

end Program

namespace Invoke

/-- What a call does once its arguments are bound; `tooMany` is the error if there are too many. -/
def enter (evaluate : Evaluator) (body : List Value) (caller : Scope) (tooMany : EvalError) :
    Except Fault (Table Value × List String) → Interp Value
  | .error .tooMany => Interp.fail tooMany
  | .error .malformedRest => Interp.fail .malformedVariadic
  | .ok (table, []) => do
    let scope ← Interp.newScope (·.within table caller)
    evaluate scope (.sexpr body)
  | .ok (table, left) => do
    let scope ← Interp.newScope (·.alone table)
    return .lambda left body scope

/-- A call looks at the captured table and then binds its arguments. -/
theorem invoke_eq (evaluate : Evaluator) (params : List String) (body : List Value)
    (captured : Scope) (args : List Value) (caller : Scope) :
    invoke evaluate params body captured args caller = (do
      let held ← Interp.inspectStore (·.tableAt captured.table)
      enter evaluate body caller (.tooManyArguments args.length params.length)
        (bindArguments held params args)) := rfl

/-- What a call does is decided by how its arguments are bound. -/
theorem invoke_apply (evaluate : Evaluator) (params : List String) (body : List Value)
    (captured : Scope) (args : List Value) (caller : Scope) (host : Host) (m : Machine) :
    invoke evaluate params body captured args caller host m
      = enter evaluate body caller (.tooManyArguments args.length params.length)
          (bindArguments (m.store.tableAt captured.table) params args) host m := rfl

/-- Calls look the same once their arguments are bound alike. -/
theorem enter_same (h : p.SameEvaluator f g) {body body' : List Value}
    (hbody : p.SameValues body body') (hscope : p.SameScope s t) {tooMany tooMany' : EvalError}
    {bound bound' : Except Fault (Table Value × List String)}
    (htooMany : bound = .error .tooMany → tooMany = tooMany')
    (hbound : bound.map (Prod.map (Table.seen p.left) id)
      = bound'.map (Prod.map (Table.seen p.right) id)) :
    p.SameRun p.SameValue (enter f body s tooMany bound) (enter g body' t tooMany' bound') := by
  cases bound with
  | error fault =>
    cases bound' with
    | ok answer => cases hbound
    | error fault' =>
      obtain rfl : fault = fault' := Except.error.inj hbound
      cases fault with
      | tooMany => exact SameRun.fail (htooMany rfl)
      | malformedRest => exact SameRun.fail rfl
  | ok answer =>
    cases bound' with
    | error fault => cases hbound
    | ok answer' =>
      obtain ⟨table, left⟩ := answer
      obtain ⟨table', left'⟩ := answer'
      obtain ⟨htable, hleft⟩ := Prod.mk.inj (Except.ok.inj hbound)
      obtain rfl : left = left' := hleft
      cases left with
      | nil =>
        refine SameRun.bind (SameRun.newScope ?_) ?_
        · intro x y hstore
          exact hstore.within htable hscope
        · intro inner inner' hinner
          exact h inner inner' _ _ hinner (sameValue_sexpr_iff.mpr hbody)
      | cons param rest =>
        refine SameRun.bind (SameRun.newScope ?_) ?_
        · intro x y hstore
          exact hstore.alone htable
        · intro inner inner' hinner
          exact SameRun.pure (sameValue_lambda_iff.mpr ⟨rfl, hbody, hinner.seen⟩)

/-- Calls of lambdas that look the same look the same. -/
theorem invoke_same (h : p.SameEvaluator f g) (params : List String) {body body' : List Value}
    (hbody : p.SameValues body body') {captured captured' : Scope}
    (hcaptured : p.left.address captured.table = p.right.address captured'.table)
    {args args' : List Value} (hargs : p.SameValues args args') (hscope : p.SameScope s t) :
    p.SameRun p.SameValue (invoke f params body captured args s)
      (invoke g params body' captured' args' t) := by
  have htables : ∀ x y : Store Value, p.SameStore x y →
      p.SameTable (x.tableAt captured.table) (y.tableAt captured'.table) :=
    fun x y hstore => hstore.tables _ _ hcaptured
  have hlength : args.length = args'.length := by
    have := congrArg List.length hargs
    rwa [List.length_map, List.length_map] at this
  rw [invoke_eq, invoke_eq]
  refine SameRun.bind (SameRun.inspectStore htables) ?_
  intro held held' hheld
  refine enter_same h hbody hscope (fun _ => by rw [hlength]) ?_
  rw [← bindArguments_seen, ← bindArguments_seen, hheld, hargs]

end Invoke

namespace Eval

/-- A deed looks the same if what it gets out of its arguments does. -/
theorem perform_same (h : p.SameEvaluator f g) (hscope : p.SameScope s t)
    {args args' : List Value} (hargs : p.SameValues args args') {d : Deed}
    (hleft : d.Seen p.left args) (hright : d.Seen p.right args') :
    p.SameRun p.SameValue (d.perform f s args) (d.perform g t args') := by
  have hsame : ∀ {α : Type} {z : List Value → Except EvalError α} {k k' : α → α},
      z (args.map (Value.seen p.left)) = (z args).map k →
      z (args'.map (Value.seen p.right)) = (z args').map k' →
      p.SameRun (fun a b => k a = k' b) (Interp.ofExcept (z args)) (Interp.ofExcept (z args')) := by
    intro α z k k' hz hz'
    apply SameRun.ofExcept
    rw [← hz, ← hz', hargs]
  cases d with
  | answer value => exact hsame hleft hright
  | evaluate code =>
    refine SameRun.bind (hsame hleft hright) fun items items' hitems => ?_
    exact h s t _ _ hscope (sameValue_sexpr_iff.mpr hitems)
  | bind inRoot bindings =>
    have htarget : p.SameScope (s.target inRoot) (t.target inRoot) := by
      cases inRoot with
      | false => exact hscope
      | true => exact hscope.root
    refine SameRun.bind (hsame hleft hright) fun bound bound' hbound => ?_
    refine SameRun.bind (SameRun.changeStore ?_) fun _ _ _ => SameRun.pure rfl
    exact fun x y hstore => hstore.defineAll htarget hbound
  | capture parts =>
    refine SameRun.bind (hsame hleft hright) ?_
    rintro ⟨params, body⟩ ⟨params', body'⟩ hparts
    obtain ⟨hparams, hbody⟩ := Prod.mk.inj hparts
    have hempty : p.SameTable .empty .empty := rfl
    refine SameRun.bind (SameRun.newScope fun x y hstore => hstore.within hempty hscope) ?_
    intro captured captured' hcaptured
    exact SameRun.pure (sameValue_lambda_iff.mpr ⟨hparams, hbody, hcaptured.seen⟩)
  | print line =>
    have hline : line args = line args' := hleft.symm.trans ((congrArg line hargs).trans hright)
    exact SameRun.bind (SameRun.printLine hline) fun _ _ _ => SameRun.pure rfl
  | load path =>
    have hpath : path args = path args' := hleft.symm.trans ((congrArg path hargs).trans hright)
    refine SameRun.bind (SameRun.ofExcept (f := id) (g := id) (by rw [hpath])) ?_
    intro found found' heq
    obtain rfl : found = found' := heq
    refine SameRun.bind (SameRun.readScript found) ?_
    intro source source' heq
    obtain rfl : source = source' := heq
    refine SameRun.bind (Program.runSource_same h hscope source) ?_
    exact fun _ _ _ => SameRun.pure rfl

/-- Applications of functions that look the same look the same. -/
theorem applyWith_same (h : p.SameEvaluator f g) (hscope : p.SameScope s t)
    {args args' : List Value} (hargs : p.SameValues args args') {function function' : Value}
    (hfunction : p.SameValue function function') :
    p.SameRun p.SameValue (applyWith f s args function) (applyWith g t args' function') := by
  cases function with
  | builtin b =>
    cases function' with
    | builtin b' =>
      obtain rfl : b = b' := Value.builtin.inj hfunction
      exact perform_same h hscope hargs (b.deed_seen p.left args) (b.deed_seen p.right args')
    | _ => simp [SameValue, Value.seen] at hfunction
  | lambda params body captured =>
    cases function' with
    | lambda params' body' captured' =>
      obtain ⟨hparams, hbody, hcaptured⟩ := sameValue_lambda_iff.mp hfunction
      subst hparams
      have htable : p.left.address captured.table = p.right.address captured'.table :=
        congrArg Scope.table hcaptured
      exact Invoke.invoke_same h params hbody htable hargs hscope
    | _ => simp [SameValue, Value.seen] at hfunction
  | _ =>
    have hrender := hfunction.render_eq
    cases function' with
    | builtin b => simp [SameValue, Value.seen] at hfunction
    | lambda params body captured => simp [SameValue, Value.seen] at hfunction
    | _ => exact SameRun.fail (congrArg EvalError.notAFunction hrender)

/-- Items that look the same have values that do. -/
theorem evaluateItems_same (h : p.SameEvaluator f g) (hscope : p.SameScope s t)
    {items items' : List Value} (hitems : p.SameValues items items') :
    p.SameRun p.SameValues (evaluateItems f s items) (evaluateItems g t items') := by
  induction items generalizing items' with
  | nil =>
    obtain rfl : items' = [] := by simpa [SameValues] using hitems.symm
    exact SameRun.pure rfl
  | cons item items ih =>
    cases items' with
    | nil => cases hitems
    | cons item' items' =>
      obtain ⟨hitem, hrest⟩ := sameValues_cons_iff.mp hitems
      refine SameRun.bind (h s t item item' hscope hitem) ?_
      intro value value' hvalue
      refine SameRun.bind (ih hrest) ?_
      intro values values' hvalues
      exact SameRun.pure (sameValues_cons_iff.mpr ⟨hvalue, hvalues⟩)

/-- Calls that look the same have answers that do. -/
theorem evaluateCall_same (h : p.SameEvaluator f g) (hscope : p.SameScope s t)
    {items items' : List Value} (hitems : p.SameValues items items') :
    p.SameRun p.SameValue (evaluateCall (applyWith f) f s items)
      (evaluateCall (applyWith g) g t items') := by
  refine SameRun.bind (evaluateItems_same h hscope hitems) ?_
  intro values values' hvalues
  match values, values' with
  | [], [] => exact SameRun.pure rfl
  | [v], [w] => exact SameRun.pure (sameValues_cons_iff.mp hvalues).1
  | v :: a :: as, w :: b :: bs =>
    obtain ⟨hfunction, hargs⟩ := sameValues_cons_iff.mp hvalues
    exact applyWith_same h hscope hargs hfunction
  | [], _ :: _ => cases hvalues
  | _ :: _, [] => cases hvalues
  | [_], _ :: _ :: _ => simp [SameValues] at hvalues
  | _ :: _ :: _, [_] => simp [SameValues] at hvalues

/-- A name has values that look the same in corresponding scopes. -/
theorem lookup_same (hscope : p.SameScope s t) (name : String) :
    p.SameRun p.SameValue (lookup s name) (lookup t name) := by
  have hget : p.SameRun
      (fun found found' => found.map (Value.seen p.left) = found'.map (Value.seen p.right))
      (Interp.inspectStore (·.get? s name)) (Interp.inspectStore (·.get? t name)) :=
    SameRun.inspectStore fun x y hstore => hstore.get? hscope name
  refine SameRun.bind hget ?_
  intro found found' hfound
  cases found with
  | none =>
    obtain rfl : found' = none := by simpa using hfound.symm
    exact SameRun.fail rfl
  | some v =>
    cases found' with
    | none => cases hfound
    | some w => exact SameRun.pure (Option.some.inj hfound)

/-- A step of evaluation cannot tell machines apart if the evaluation of what is inside cannot. -/
theorem step_same (h : p.SameEvaluator f g) :
    p.SameEvaluator (step (applyWith f) f) (step (applyWith g) g) := by
  intro s t v w hscope hvalue
  cases v with
  | symbol name =>
    cases w with
    | symbol name' =>
      obtain rfl : name = name' := Value.symbol.inj hvalue
      exact lookup_same hscope name
    | _ => simp [SameValue, Value.seen] at hvalue
  | sexpr items =>
    cases w with
    | sexpr items' => exact evaluateCall_same h hscope (sameValue_sexpr_iff.mp hvalue)
    | _ => simp [SameValue, Value.seen] at hvalue
  | _ =>
    cases w with
    | symbol name => simp [SameValue, Value.seen] at hvalue
    | sexpr items => simp [SameValue, Value.seen] at hvalue
    | _ => exact SameRun.pure hvalue

/-- Evaluation to any depth cannot tell machines apart that look the same. -/
theorem evaluate_same (p : ViewPair) (depth : Nat) :
    p.SameEvaluator (evaluate depth) (evaluate depth) := by
  induction depth with
  | zero => exact fun _ _ _ _ _ _ => SameRun.tooDeep
  | succ depth ih => exact step_same ih

end Eval

end QLisp
