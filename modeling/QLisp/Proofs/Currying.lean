import QLisp.Proofs.Closed
import QLisp.Proofs.SameRun

/-!
# Arguments in two stages

A lambda that gets fewer arguments than it has parameters answers with a lambda for the others. Its
bindings are a copy in a new table, and a later call copies that table again, so the scope of the
body stands at another address than it would if all arguments had come at once. The two calls
still have the same outcome, up to the one table more: the call with all arguments is looked at
through the view that makes room for that table.

The statement is `Invoke.invoke_append_same`.
-/

set_option autoImplicit false

namespace QLisp

namespace ViewPair

/-- A run with room made at the address `n`, beside a run as it is. -/
def gap (n : Nat) : ViewPair where
  left := .gap n
  right := .plain
  around_eq := by
    intro as bs h
    exact h.trans (List.map_id bs)

variable {n : Nat}

/-- Values below a gap look the same through it. -/
theorem sameValues_gap {vs : List Value} (h : ∀ v ∈ vs, v.Below n) :
    (gap n).SameValues vs vs := by
  have hplain : vs.map (Value.seen .plain) = vs := map_eq_self_iff.mpr fun v _ => v.seen_plain
  exact (Value.map_seen_gap_iff.mpr h).trans hplain.symm

/-- A table below a gap looks the same through it. -/
theorem sameTable_gap {t : Table Value} (h : t.Below n) : (gap n).SameTable t t :=
  h.trans t.seen_plain.symm

/-- A scope below a gap corresponds to itself. -/
theorem sameScope_gap {s : Scope} (h : s.Below n) : (gap n).SameScope s s :=
  (Scope.map_address_gap_iff.mpr h).trans (List.map_id s.chain).symm

/-- A closed store and the same store with one table more look the same if room is made for that
table. -/
theorem sameStore_alloc {s : Store Value} (h : s.Closed) (t : Table Value) :
    (gap s.tables.size).SameStore s (s.alloc t).1 := by
  have hsize := Store.size_alloc s t
  refine ⟨?_, ?_⟩
  · intro a b hab
    change (View.gap s.tables.size).address a = b at hab
    by_cases ha : a < s.tables.size
    · rw [View.address_gap_of_lt ha] at hab
      subst hab
      rw [Store.tableAt_alloc_of_lt s t a ha]
      exact sameTable_gap (h a)
    · have hle : s.tables.size ≤ a := Nat.le_of_not_lt ha
      rw [View.address_gap_of_le hle] at hab
      rw [Store.tableAt_of_size_le s a hle, Store.tableAt_of_size_le _ b (by omega)]
      rfl
  · intro k
    have hle : s.tables.size ≤ s.tables.size + k := Nat.le_add_right _ _
    rw [hsize]
    show (View.gap s.tables.size).address (s.tables.size + k) = s.tables.size + 1 + k
    rw [View.address_gap_of_le hle]
    omega

end ViewPair

/-- A machine that differs from an earlier one by new tables only. -/
structure Machine.Extends (m m' : Machine) : Prop where
  size_le : m.store.tables.size ≤ m'.store.tables.size
  tableAt_eq : ∀ a, a < m.store.tables.size → m'.store.tableAt a = m.store.tableAt a
  printed_eq : m'.printed = m.printed
  requests_eq : m'.requests = m.requests
  input_eq : m'.input = m.input

/-- A machine with a new table extends the machine without it. -/
theorem Machine.extends_alloc (m : Machine) (t : Table Value) :
    m.Extends ⟨(m.store.alloc t).1, m.printed, m.requests, m.input⟩ := by
  refine ⟨?_, ?_, rfl, rfl, rfl⟩
  · have hsize := Store.size_alloc m.store t
    show m.store.tables.size ≤ (m.store.alloc t).1.tables.size
    omega
  · exact fun a ha => Store.tableAt_alloc_of_lt m.store t a ha

namespace Invoke

/-- Arguments can be bound in two stages: the first ones leave parameters for the others. -/
theorem bindArguments_append (table : Table Value) (params : List String) (xs ys : List Value)
    (hfew : xs.length ≤ params.length) (hnames : restMarker ∉ params.take xs.length) :
    ∃ bound, bindArguments table params xs = .ok (bound, params.drop xs.length)
      ∧ bindArguments table params (xs ++ ys)
        = bindArguments bound (params.drop xs.length) ys := by
  induction xs generalizing table params with
  | nil =>
    refine ⟨table, ?_, rfl⟩
    rw [bindArguments]
    rfl
  | cons x xs ih =>
    cases params with
    | nil => simp at hfew
    | cons param params =>
      rw [List.length_cons, List.take_succ_cons, List.mem_cons, not_or] at hnames
      have hparam : param ≠ restMarker := Ne.symm hnames.1
      have hlength : xs.length ≤ params.length := Nat.le_of_succ_le_succ hfew
      obtain ⟨bound, hbound, hstaged⟩ := ih (table.insert param x) params hlength hnames.2
      refine ⟨bound, ?_, ?_⟩
      · rw [bindArguments_of_ne _ _ _ _ hparam]
        exact hbound
      · rw [List.cons_append, bindArguments_of_ne _ _ _ _ hparam]
        exact hstaged

/-- There are too many arguments exactly if no parameter takes all that are left and there are
fewer parameters than arguments. -/
theorem bindArguments_eq_tooMany_iff (table : Table Value) (params : List String)
    (args : List Value) :
    bindArguments table params args = .error .tooMany
      ↔ restMarker ∉ params ∧ params.length < args.length := by
  fun_induction bindArguments table params args with
  | case1 table params => simp
  | case2 table arg args => simp
  | case3 table arg args name => simp
  | case4 table params arg args hparams => simp
  | case5 table param params arg args hparam ih =>
    rw [ih, List.mem_cons, not_or, List.length_cons, List.length_cons, Nat.add_lt_add_iff_right]
    constructor
    · exact fun h => ⟨⟨Ne.symm hparam, h.1⟩, h.2⟩
    · exact fun h => ⟨h.1.2, h.2⟩

/-- A call with the first arguments answers with a lambda for the others, whose new table is all
that it adds to the machine. -/
theorem invoke_of_bound (evaluate : Evaluator) (host : Host) (m : Machine)
    {params left : List String} (body : List Value) (captured : Scope) {xs : List Value}
    (caller : Scope) {bound : Table Value}
    (hbound : bindArguments (m.store.tableAt captured.table) params xs = .ok (bound, left))
    (hleft : left ≠ []) :
    invoke evaluate params body captured xs caller host m
      = some (.ok (.lambda left body ⟨m.store.tables.size, []⟩),
          ⟨(m.store.alloc bound).1, m.printed, m.requests, m.input⟩) := by
  rw [invoke_apply, hbound]
  cases left with
  | nil => exact absurd rfl hleft
  | cons param rest => rfl

/-- Currying. Fewer arguments than parameters, with none of the parameters they reach taking all
that are left, make a lambda and change nothing that is there. That lambda, called with the other
arguments, has the outcome of the call with all arguments at once: the same result, error, prints
and tables, where the addresses from the first new one on are moved up by one. Only the error that
there are too many arguments counts those of the second call alone.

The lambda, the arguments and the calling scope belong to the machine, as `Eval.evaluate_keeps` says
of all that evaluation makes. -/
theorem invoke_append_same (depth : Nat) (host : Host) (m : Machine) (hclosed : m.store.Closed)
    (params : List String) (body : List Value) (captured : Scope)
    (hlambda : (Value.lambda params body captured).Below m.store.tables.size)
    (xs ys : List Value) (hxs : ∀ v ∈ xs, v.Below m.store.tables.size)
    (hys : ∀ v ∈ ys, v.Below m.store.tables.size)
    (caller₁ caller : Scope) (hcaller : caller.Below m.store.tables.size)
    (hfew : xs.length < params.length) (hnames : restMarker ∉ params.take xs.length) :
    ∃ scope m₁,
      invoke (Eval.evaluate depth) params body captured xs caller₁ host m
          = some (.ok (.lambda (params.drop xs.length) body scope), m₁)
        ∧ m.Extends m₁
        ∧ let once := invoke (Eval.evaluate depth) params body captured (xs ++ ys) caller host m
          let staged :=
            invoke (Eval.evaluate depth) (params.drop xs.length) body scope ys caller host m₁
          if restMarker ∉ params ∧ params.length < (xs ++ ys).length then
            once = some (.error (.tooManyArguments (xs ++ ys).length params.length), m)
              ∧ staged = some (.error (.tooManyArguments ((xs ++ ys).length - xs.length)
                  (params.length - xs.length)), m₁)
          else
            (ViewPair.gap m.store.tables.size).SameAnswer
              (ViewPair.gap m.store.tables.size).SameValue once staged := by
  obtain ⟨hbody, -⟩ := Value.below_lambda_iff.mp hlambda
  have hheld : (m.store.tableAt captured.table).Below m.store.tables.size :=
    hclosed captured.table
  obtain ⟨bound, hbound, hstaged⟩ := bindArguments_append (m.store.tableAt captured.table) params
    xs ys (Nat.le_of_lt hfew) hnames
  have hleft : params.drop xs.length ≠ [] := by
    intro hnil
    have := List.drop_eq_nil_iff.mp hnil
    omega
  refine ⟨⟨m.store.tables.size, []⟩, _,
    invoke_of_bound (Eval.evaluate depth) host m body captured caller₁ hbound hleft,
    m.extends_alloc bound, ?_⟩
  intro once staged
  -- The table of the new lambda holds the first bindings, so both calls bind the rest alike.
  have hfound : (m.store.alloc bound).1.tableAt m.store.tables.size = bound :=
    Store.tableAt_alloc_self m.store bound
  have honce := invoke_apply (Eval.evaluate depth) params body captured (xs ++ ys) caller host m
  have hlater := invoke_apply (Eval.evaluate depth) (params.drop xs.length) body
    ⟨m.store.tables.size, []⟩ ys caller host
    ⟨(m.store.alloc bound).1, m.printed, m.requests, m.input⟩
  have htooMany := bindArguments_eq_tooMany_iff (m.store.tableAt captured.table) params (xs ++ ys)
  rw [hstaged] at honce htooMany
  rw [hfound] at hlater
  by_cases hmany : restMarker ∉ params ∧ params.length < (xs ++ ys).length
  · rw [htooMany.mpr hmany] at honce hlater
    rw [List.length_drop] at hlater
    rw [if_pos hmany, List.length_append, Nat.add_sub_cancel_left, ← List.length_append]
    exact ⟨honce, hlater⟩
  · -- The machines differ by the table of the new lambda, which the view makes room for.
    have hsame : (ViewPair.gap m.store.tables.size).SameMachine m
        ⟨(m.store.alloc bound).1, m.printed, m.requests, m.input⟩ :=
      ⟨ViewPair.sameStore_alloc hclosed bound, rfl, rfl, rfl⟩
    have hbelow : bound.All (Value.Below m.store.tables.size) :=
      all_bindArguments (fun _ => Value.below_qexpr_iff.mpr) (Table.below_iff.mp hheld) hxs hbound
    have htable := ViewPair.sameTable_gap (Table.below_iff.mpr hbelow)
    rw [if_neg hmany]
    show ViewPair.SameAnswer _ _ (invoke _ _ _ _ _ _ host m) (invoke _ _ _ _ _ _ host _)
    rw [honce, hlater]
    refine enter_same (Eval.evaluate_same _ depth) (ViewPair.sameValues_gap hbody)
      (ViewPair.sameScope_gap hcaller) (fun h => absurd (htooMany.mp h) hmany) ?_ host _ _ hsame
    rw [← bindArguments_seen, ← bindArguments_seen, htable, ViewPair.sameValues_gap hys]

/-- A variadic lambda that gets its first argument, and then two more. -/
theorem invoke_append_same_rest :
    ∃ scope m₁,
      invoke (Eval.evaluate 9) ["x", "&", "rest"] [.symbol "list", .symbol "x", .symbol "rest"]
          ⟨1, [0]⟩ [.number ⟨1, 0⟩] ⟨0, []⟩ (fun _ => .input)
          ⟨(Machine.withBuiltins.1.store.child ⟨0, []⟩).1, #[], #[], .nothing⟩
        = some (.ok (.lambda ["&", "rest"] [.symbol "list", .symbol "x", .symbol "rest"] scope), m₁)
      ∧ (ViewPair.gap 2).SameAnswer (ViewPair.gap 2).SameValue
          (invoke (Eval.evaluate 9) ["x", "&", "rest"]
            [.symbol "list", .symbol "x", .symbol "rest"] ⟨1, [0]⟩
            [.number ⟨1, 0⟩, .number ⟨2, 0⟩, .number ⟨3, 0⟩] ⟨0, []⟩ (fun _ => .input)
            ⟨(Machine.withBuiltins.1.store.child ⟨0, []⟩).1, #[], #[], .nothing⟩)
          (invoke (Eval.evaluate 9) ["&", "rest"] [.symbol "list", .symbol "x", .symbol "rest"]
            scope [.number ⟨2, 0⟩, .number ⟨3, 0⟩] ⟨0, []⟩ (fun _ => .input) m₁) := by
  obtain ⟨scope, m₁, hfirst, -, hsame⟩ := invoke_append_same 9 (fun _ => .input)
    ⟨(Machine.withBuiltins.1.store.child ⟨0, []⟩).1, #[], #[], .nothing⟩
    (Machine.closed_withBuiltins.alloc Table.All.empty) ["x", "&", "rest"]
    [.symbol "list", .symbol "x", .symbol "rest"] ⟨1, [0]⟩ rfl [.number ⟨1, 0⟩]
    [.number ⟨2, 0⟩, .number ⟨3, 0⟩] (by simp [Value.Below, Value.seen])
    (by simp [Value.Below, Value.seen]) ⟨0, []⟩ ⟨0, []⟩ (by decide) (by decide) (by decide)
  exact ⟨scope, m₁, hfirst, hsame⟩

end Invoke

end QLisp
