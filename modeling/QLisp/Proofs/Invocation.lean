import QLisp.Proofs.Captured

/-!
# What a call of a lambda amounts to

Arguments are bound one by one, and a call can end in four ways: there are too many arguments, the
parameters after `&` are malformed, the body is evaluated, or a lambda for the other parameters is
returned. Which of them it is follows from the number of arguments and from the place of the first
`&` alone. `Invocation.decided_by_count` says how, and what is bound in each case.

The ways to end are described for all evaluators at once. An evaluator that never answers tells
them apart: with it a call has no answer exactly if it evaluates the body.
-/

set_option autoImplicit false

namespace QLisp

namespace Table

/-- The table that binds what `base` binds, except for the names in `bindings`: such a name has the
value that stands last beside it. -/
def Overrides (t base : Table Value) (bindings : List (String × Value)) : Prop :=
  ∀ name, t.get? name = (find? name bindings.reverse).or (base.get? name)

/-- A name is looked for in the front part first. -/
theorem find?_append (name : String) (front back : List (String × Value)) :
    find? name (front ++ back) = (find? name front).or (find? name back) := by
  induction front with
  | nil => rfl
  | cons entry front ih =>
    obtain ⟨n, v⟩ := entry
    rw [List.cons_append, find?, find?, ih]
    split <;> rfl

/-- The first binding is made before the others. -/
theorem bindAll_cons (t : Table Value) (binding : String × Value)
    (bindings : List (String × Value)) :
    t.bindAll (binding :: bindings) = (t.insert binding.1 binding.2).bindAll bindings := rfl

/-- The bindings of the front part are made before those of the back part. -/
theorem bindAll_append (t : Table Value) (front back : List (String × Value)) :
    t.bindAll (front ++ back) = (t.bindAll front).bindAll back :=
  List.foldl_append

/-- Binding from left to right lets the last value of a name win. -/
theorem bindAll_overrides (t : Table Value) (bindings : List (String × Value)) :
    (t.bindAll bindings).Overrides t bindings := by
  induction bindings generalizing t with
  | nil => exact fun name => rfl
  | cons binding bindings ih =>
    intro name
    rw [bindAll_cons, ih, get?_insert, List.reverse_cons, find?_append]
    cases find? name bindings.reverse with
    | some v => rfl
    | none =>
      rw [Option.none_or, Option.none_or, find?]
      split <;> rfl

end Table

/-- A lambda, the arguments it is called with, and the scope it is called from. -/
structure Invocation where
  params : List String
  body : List Value
  captured : Scope
  args : List Value
  caller : Scope

namespace Invocation

open Invoke

variable (call : Invocation) (host : Host) (m : Machine)

/-- Carries out a call. -/
def perform (evaluate : Evaluator) : Interp Value :=
  invoke evaluate call.params call.body call.captured call.args call.caller

/-- The bindings that the lambda holds. -/
def held : Table Value :=
  m.store.tableAt call.captured.table

/-- The call fails before anything is evaluated, and leaves the machine as it is. -/
def Refuses (e : EvalError) : Prop :=
  ∀ evaluate, call.perform evaluate host m = some (.error e, m)

/-- The call evaluates the body. The scope is a new one inside of the caller's, and its own bindings
are those of the lambda overridden by `bindings`. -/
def Runs (bindings : List (String × Value)) : Prop :=
  ∃ scope m', m.Extends m' ∧ m.store.tables.size ≤ scope.table ∧
    scope.enclosing = call.caller.chain ∧
    (m'.store.tableAt scope.table).Overrides (call.held m) bindings ∧
    ∀ evaluate, call.perform evaluate host m = evaluate scope (.sexpr call.body) host m'

/-- The call returns a lambda for the parameters `left`. Its scope is a new one with nothing around
it, and its own bindings are those of the lambda overridden by `bindings`. -/
def Waits (left : List String) (bindings : List (String × Value)) : Prop :=
  ∃ scope m', m.Extends m' ∧ m.store.tables.size ≤ scope.table ∧ scope.enclosing = [] ∧
    (m'.store.tableAt scope.table).Overrides (call.held m) bindings ∧
    ∀ evaluate, call.perform evaluate host m = some (.ok (.lambda left call.body scope), m')

variable {call host m}

/-! ## The ways to end exclude each other -/

/-- A call that runs has no answer where nothing can be evaluated. -/
theorem Runs.perform_eq_none {bindings : List (String × Value)} (h : call.Runs host m bindings) :
    call.perform (fun _ _ => Interp.tooDeep) host m = none := by
  obtain ⟨scope, m', -, -, -, -, hrun⟩ := h
  exact hrun _

/-- A call that is refused does not run. -/
theorem Refuses.not_runs {e : EvalError} (h : call.Refuses host m e)
    (bindings : List (String × Value)) : ¬ call.Runs host m bindings := by
  intro hruns
  cases (h _).symm.trans hruns.perform_eq_none

/-- A call that waits for arguments does not run. -/
theorem Waits.not_runs {left : List String} {bindings : List (String × Value)}
    (h : call.Waits host m left bindings) (bindings' : List (String × Value)) :
    ¬ call.Runs host m bindings' := by
  obtain ⟨scope, m', -, -, -, -, hwait⟩ := h
  intro hruns
  cases (hwait _).symm.trans hruns.perform_eq_none

/-- A call that is refused does not wait for arguments. -/
theorem Refuses.not_waits {e : EvalError} (h : call.Refuses host m e) (left : List String)
    (bindings : List (String × Value)) : ¬ call.Waits host m left bindings := by
  rintro ⟨scope, m', -, -, -, -, hwait⟩
  cases (h fun _ _ => Interp.tooDeep).symm.trans (hwait _)

/-! ## From bound arguments to the end of a call -/

/-- A call binds its arguments and then goes on as the bindings say. -/
theorem perform_apply (evaluate : Evaluator) :
    call.perform evaluate host m
      = enter evaluate call.body call.caller
          (.tooManyArguments call.args.length call.params.length)
          (bindArguments (call.held m) call.params call.args) host m := rfl

/-- The new table of a call overrides the one that it is made from. -/
theorem overrides_alloc (m : Machine) (base : Table Value) (bindings : List (String × Value)) :
    ((m.alloc (base.bindAll bindings)).store.tableAt m.store.tables.size).Overrides base
      bindings := by
  have hnew : (m.alloc (base.bindAll bindings)).store.tableAt m.store.tables.size
      = base.bindAll bindings := Store.tableAt_alloc_self m.store _
  rw [hnew]
  exact base.bindAll_overrides bindings

/-- Too many arguments are refused. -/
theorem refuses_of_tooMany
    (h : bindArguments (call.held m) call.params call.args = .error .tooMany) :
    call.Refuses host m (.tooManyArguments call.args.length call.params.length) := by
  intro evaluate
  rw [perform_apply, h]
  rfl

/-- A rest marker without exactly one name behind it is refused. -/
theorem refuses_of_malformed
    (h : bindArguments (call.held m) call.params call.args = .error .malformedRest) :
    call.Refuses host m .malformedVariadic := by
  intro evaluate
  rw [perform_apply, h]
  rfl

/-- A call whose parameters are all bound runs. -/
theorem runs_of_bound {bindings : List (String × Value)}
    (h : bindArguments (call.held m) call.params call.args
      = .ok ((call.held m).bindAll bindings, [])) : call.Runs host m bindings := by
  refine ⟨⟨m.store.tables.size, call.caller.chain⟩, m.alloc ((call.held m).bindAll bindings),
    m.extends_alloc _, Nat.le_refl _, rfl, overrides_alloc m _ bindings, ?_⟩
  intro evaluate
  rw [perform_apply, h]
  rfl

/-- A call with parameters left waits for arguments. -/
theorem waits_of_bound {left : List String} {bindings : List (String × Value)}
    (h : bindArguments (call.held m) call.params call.args
      = .ok ((call.held m).bindAll bindings, left)) (hleft : left ≠ []) :
    call.Waits host m left bindings := by
  refine ⟨⟨m.store.tables.size, []⟩, m.alloc ((call.held m).bindAll bindings),
    m.extends_alloc _, Nat.le_refl _, rfl, overrides_alloc m _ bindings, ?_⟩
  intro evaluate
  exact invoke_of_bound evaluate host m call.body call.captured call.caller h hleft

/-- No `&` is reached, and parameters are left. -/
theorem waits_of_few (hfew : call.args.length < call.params.length)
    (hnames : restMarker ∉ call.params.take call.args.length) :
    call.Waits host m (call.params.drop call.args.length) (call.params.zip call.args) := by
  refine waits_of_bound (bindArguments_of_few _ (Nat.le_of_lt hfew) hnames) ?_
  intro hnil
  have hlength := List.drop_eq_nil_iff.1 hnil
  omega

end Invocation

/-! ## Where the first `&` stands -/

namespace Invoke

section Rest

variable {params : List String} {k : Nat} (hk : params.idxOf? restMarker = some k)

include hk

/-- There is no rest marker before the first one. -/
theorem not_mem_take_of_idxOf? : restMarker ∉ params.take k := by
  obtain ⟨hlt, -, hbefore⟩ := List.idxOf?_eq_some_iff.1 hk
  intro hmem
  obtain ⟨j, hj, hmarker⟩ := List.mem_take_iff_getElem.1 hmem
  exact hbefore j (by omega) hmarker

/-- The parameters from the first rest marker on. -/
theorem drop_of_idxOf? : params.drop k = restMarker :: params.drop (k + 1) := by
  obtain ⟨hlt, hmarker, -⟩ := List.idxOf?_eq_some_iff.1 hk
  rw [List.drop_eq_getElem_cons hlt, hmarker]

/-- Once `&` is reached, the parameters before it are bound and the other arguments are left. -/
theorem bindArguments_at_rest (table : Table Value) {args : List Value}
    (hreached : k < args.length) :
    bindArguments table params args
      = bindArguments (table.bindAll (params.zip (args.take k)))
          (restMarker :: params.drop (k + 1)) (args.drop k) := by
  obtain ⟨hlt, -, -⟩ := List.idxOf?_eq_some_iff.1 hk
  have hcount : (args.take k).length = k := List.length_take_of_le (Nat.le_of_lt hreached)
  have hfew : (args.take k).length ≤ params.length := by omega
  have hnames : restMarker ∉ params.take (args.take k).length := by
    rw [hcount]
    exact not_mem_take_of_idxOf? hk
  obtain ⟨bound, hbound, hstaged⟩ :=
    bindArguments_append table params (args.take k) (args.drop k) hfew hnames
  rw [bindArguments_of_few table hfew hnames] at hbound
  obtain ⟨rfl, -⟩ := Prod.mk.inj (Except.ok.inj hbound)
  rw [List.take_append_drop, hcount, drop_of_idxOf? hk] at hstaged
  exact hstaged

/-- The one name after `&` takes all arguments that are left. -/
theorem bindArguments_rest (table : Table Value) {args : List Value} (hreached : k < args.length)
    {name : String} (hname : params.drop (k + 1) = [name]) :
    bindArguments table params args
      = .ok (table.bindAll (params.zip (args.take k) ++ [(name, .qexpr (args.drop k))]), []) := by
  rw [bindArguments_at_rest hk table hreached, hname, List.drop_eq_getElem_cons hreached,
    Table.bindAll_append]
  rfl

/-- No name after `&`, or more than one, is malformed. -/
theorem bindArguments_malformed (table : Table Value) {args : List Value}
    (hreached : k < args.length) (hlength : params.length ≠ k + 2) :
    bindArguments table params args = .error .malformedRest := by
  obtain ⟨hlt, -, -⟩ := List.idxOf?_eq_some_iff.1 hk
  rw [bindArguments_at_rest hk table hreached, List.drop_eq_getElem_cons hreached]
  match hafter : params.drop (k + 1) with
  | [] => rfl
  | [name] =>
    have hone := congrArg List.length hafter
    rw [List.length_drop, List.length_singleton] at hone
    omega
  | _ :: _ :: _ => rfl

end Rest

end Invoke

namespace Invocation

open Invoke

/-- Without `&` the number of arguments decides. -/
theorem decided_without_rest {call : Invocation} (host : Host) (m : Machine)
    (hrest : restMarker ∉ call.params) :
    (call.Refuses host m (.tooManyArguments call.args.length call.params.length)
      ↔ call.params.length < call.args.length) ∧
    (call.Runs host m (call.params.zip call.args) ↔ call.args.length = call.params.length) ∧
    (call.Waits host m (call.params.drop call.args.length) (call.params.zip call.args)
      ↔ call.args.length < call.params.length) := by
  have hnames : restMarker ∉ call.params.take call.args.length :=
    fun hmem => hrest (List.mem_of_mem_take hmem)
  -- In each case one way to end is shown to be taken, and it excludes the other two.
  rcases Nat.lt_trichotomy call.args.length call.params.length with hlt | heq | hgt
  · have hwaits : call.Waits host m (call.params.drop call.args.length)
        (call.params.zip call.args) := waits_of_few hlt hnames
    refine ⟨iff_of_false ?_ (by omega), iff_of_false ?_ (by omega), iff_of_true hwaits hlt⟩
    · exact fun hrefuses => hrefuses.not_waits _ _ hwaits
    · exact hwaits.not_runs _
  · have hbound := bindArguments_of_few (call.held m) (Nat.le_of_eq heq) hnames
    rw [heq, List.drop_length] at hbound
    have hruns : call.Runs host m (call.params.zip call.args) := runs_of_bound hbound
    refine ⟨iff_of_false ?_ (by omega), iff_of_true hruns heq, iff_of_false ?_ (by omega)⟩
    · exact fun hrefuses => hrefuses.not_runs _ hruns
    · exact fun hwaits => hwaits.not_runs _ hruns
  · have hrefuses : call.Refuses host m
        (.tooManyArguments call.args.length call.params.length) :=
      refuses_of_tooMany ((bindArguments_eq_tooMany_iff _ _ _).2 ⟨hrest, hgt⟩)
    refine ⟨iff_of_true hrefuses hgt, iff_of_false ?_ (by omega), iff_of_false ?_ (by omega)⟩
    · exact hrefuses.not_runs _
    · exact hrefuses.not_waits _ _

/-- With `&`, what decides is whether the arguments reach it and whether it is followed by one
name. -/
theorem decided_with_rest {call : Invocation} (host : Host) (m : Machine) {k : Nat}
    (hk : call.params.idxOf? restMarker = some k) :
    (call.Waits host m (call.params.drop call.args.length) (call.params.zip call.args)
      ↔ call.args.length ≤ k) ∧
    ((∃ name, call.params[k + 1]? = some name ∧
        call.Runs host m
          (call.params.zip (call.args.take k) ++ [(name, .qexpr (call.args.drop k))]))
      ↔ k < call.args.length ∧ call.params.length = k + 2) ∧
    (call.Refuses host m .malformedVariadic
      ↔ k < call.args.length ∧ call.params.length ≠ k + 2) := by
  obtain ⟨hlt, -, -⟩ := List.idxOf?_eq_some_iff.1 hk
  by_cases hreached : k < call.args.length
  · by_cases hlength : call.params.length = k + 2
    · obtain ⟨name, hname⟩ : ∃ name, call.params.drop (k + 1) = [name] := by
        rw [← List.length_eq_one_iff, List.length_drop]
        omega
      have hruns : call.Runs host m
          (call.params.zip (call.args.take k) ++ [(name, .qexpr (call.args.drop k))]) :=
        runs_of_bound (bindArguments_rest hk _ hreached hname)
      have hfound : call.params[k + 1]? = some name := by
        rw [← List.head?_drop, hname]
        rfl
      refine ⟨iff_of_false ?_ (by omega), iff_of_true ⟨name, hfound, hruns⟩ ⟨hreached, hlength⟩,
        iff_of_false ?_ (fun h => h.2 hlength)⟩
      · exact fun hwaits => hwaits.not_runs _ hruns
      · exact fun hrefuses => hrefuses.not_runs _ hruns
    · have hrefuses : call.Refuses host m .malformedVariadic :=
        refuses_of_malformed (bindArguments_malformed hk _ hreached hlength)
      refine ⟨iff_of_false ?_ (by omega), iff_of_false ?_ (fun h => hlength h.2),
        iff_of_true hrefuses ⟨hreached, hlength⟩⟩
      · exact hrefuses.not_waits _ _
      · exact fun ⟨_, _, hruns⟩ => hrefuses.not_runs _ hruns
  · have hnames : restMarker ∉ call.params.take call.args.length := by
      intro hmem
      exact not_mem_take_of_idxOf? hk (List.take_subset_take_left _ (by omega) hmem)
    have hwaits : call.Waits host m (call.params.drop call.args.length)
        (call.params.zip call.args) := waits_of_few (by omega) hnames
    refine ⟨iff_of_true hwaits (by omega), iff_of_false ?_ (fun h => hreached h.1),
      iff_of_false ?_ (fun h => hreached h.1)⟩
    · exact fun ⟨_, _, hruns⟩ => hwaits.not_runs _ hruns
    · exact fun hrefuses => hrefuses.not_waits _ _ hwaits

/-- How a call ends follows from the number of arguments and from the place `k` of the first `&`.
Without `&`, more arguments than parameters are refused, as many evaluate the body, and fewer give a
lambda for the other parameters. With `&`, up to `k` arguments give such a lambda; more of them
evaluate the body, with the list of all arguments from the place `k` on bound to the one name after
`&`, and are refused if there is not exactly one name. -/
theorem decided_by_count (call : Invocation) (host : Host) (m : Machine) :
    match call.params.idxOf? restMarker with
    | none =>
      (call.Refuses host m (.tooManyArguments call.args.length call.params.length)
        ↔ call.params.length < call.args.length) ∧
      (call.Runs host m (call.params.zip call.args) ↔ call.args.length = call.params.length) ∧
      (call.Waits host m (call.params.drop call.args.length) (call.params.zip call.args)
        ↔ call.args.length < call.params.length)
    | some k =>
      (call.Waits host m (call.params.drop call.args.length) (call.params.zip call.args)
        ↔ call.args.length ≤ k) ∧
      ((∃ name, call.params[k + 1]? = some name ∧
          call.Runs host m
            (call.params.zip (call.args.take k) ++ [(name, .qexpr (call.args.drop k))]))
        ↔ k < call.args.length ∧ call.params.length = k + 2) ∧
      (call.Refuses host m .malformedVariadic
        ↔ k < call.args.length ∧ call.params.length ≠ k + 2) := by
  cases hk : call.params.idxOf? restMarker with
  | none => exact decided_without_rest host m (List.idxOf?_eq_none_iff.1 hk)
  | some k => exact decided_with_rest host m hk

end Invocation

end QLisp
