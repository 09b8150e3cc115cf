import QLisp.Proofs.Outcome
import QLisp.Proofs.Prelude.Logic
import QLisp.Proofs.Prelude.Traversals

/-!
# Aggregates of numbers

`sum` and `product` fold a list of numbers with a builtin, `min` and `max` their arguments with a
lambda that they make for it. Additions and multiplications are exact, but the scale of a result
depends on the order in which they are made: a factor one makes trailing zeros go, a zero makes the
other scale count. So what a fold answers is known by its value (`Decimal.value_foldl_add`,
`Decimal.value_foldl_mul`), which is the same for all orders.

`min` and `max` keep one of two numbers, by a comparison of their values. What is kept in the end is
one of the arguments, and none of them comes before it (`Comparison.foldl_pick`).

The statement is `Prelude.InForce.aggregates_numbers`.
-/

set_option autoImplicit false

namespace QLisp

open Interp Eval

/-! ## Folds of numbers -/

namespace Decimal

/-- Adding up decimals adds up their values. -/
theorem value_foldl_add (ds : List Decimal) (d : Decimal) :
    (ds.foldl add d).value = d.value + (ds.map value).sum := by
  induction ds generalizing d with
  | nil => simp
  | cons e ds ih =>
    rw [List.foldl_cons, ih, value_add, List.map_cons, List.sum_cons, add_assoc]

/-- Multiplying decimals multiplies their values. -/
theorem value_foldl_mul (ds : List Decimal) (d : Decimal) :
    (ds.foldl mul d).value = d.value * (ds.map value).prod := by
  induction ds generalizing d with
  | nil => simp
  | cons e ds ih =>
    rw [List.foldl_cons, ih, value_mul, List.map_cons, List.prod_cons, mul_assoc]

end Decimal

namespace Comparison

/-- The first number if it comes before the second one, which is kept otherwise. -/
def pick (op : Comparison) (a b : Decimal) : Decimal :=
  if op.Holds a.value b.value then a else b

variable {op : Comparison} (hop : op = .less ∨ op = .greater)

include hop

/-- No number is less or greater than itself. -/
theorem not_holds_self (x : ℚ) : ¬ op.Holds x x := by
  rcases hop with rfl | rfl
  · exact lt_irrefl x
  · exact lt_irrefl x

/-- If one number is less or greater than another one, then it is not the other way round. -/
theorem not_holds_symm {x y : ℚ} (h : op.Holds x y) : ¬ op.Holds y x := by
  rcases hop with rfl | rfl
  · exact lt_asymm h
  · exact lt_asymm h

/-- Being no less or no greater goes from number to number. -/
theorem not_holds_trans {x y z : ℚ} (hxy : ¬ op.Holds x y) (hyz : ¬ op.Holds y z) :
    ¬ op.Holds x z := by
  rcases hop with rfl | rfl
  · exact not_lt.2 (le_trans (not_lt.1 hyz) (not_lt.1 hxy))
  · exact not_lt.2 (le_trans (not_lt.1 hxy) (not_lt.1 hyz))

/-- Neither number comes before the one that is picked. -/
theorem not_holds_pick (a b : Decimal) :
    ¬ op.Holds a.value (op.pick a b).value ∧ ¬ op.Holds b.value (op.pick a b).value := by
  unfold pick
  split
  · next h => exact ⟨not_holds_self hop _, not_holds_symm hop h⟩
  · next h => exact ⟨h, not_holds_self hop _⟩

/-- What a fold picks is one of the numbers, and none of them comes before it. -/
theorem foldl_pick (ds : List Decimal) (d : Decimal) :
    ds.foldl op.pick d ∈ d :: ds ∧
      ∀ x ∈ d :: ds, ¬ op.Holds x.value (ds.foldl op.pick d).value := by
  induction ds generalizing d with
  | nil =>
    refine ⟨List.mem_cons_self, fun x hx => ?_⟩
    rw [List.mem_singleton.1 hx]
    exact not_holds_self hop _
  | cons e ds ih =>
    obtain ⟨hmem, hfirst⟩ := ih (op.pick d e)
    rw [List.forall_mem_cons] at hfirst
    obtain ⟨hd, he⟩ := not_holds_pick hop d e
    rw [List.foldl_cons]
    refine ⟨?_, ?_⟩
    · rcases List.mem_cons.1 hmem with hpicked | hrest
      · rw [hpicked, pick]
        split <;> simp
      · exact List.mem_cons_of_mem _ (List.mem_cons_of_mem _ hrest)
    · rw [List.forall_mem_cons, List.forall_mem_cons]
      exact ⟨not_holds_trans hop hd hfirst.1, not_holds_trans hop he hfirst.1, hfirst.2⟩

end Comparison

/-! ## Their code -/

namespace Prelude

/-- An operation on numbers as one on values. -/
def onNumbers (op : Decimal → Decimal → Decimal) : Value → Value → Value
  | .number a, .number b => .number (op a b)
  | _, _ => .unit

/-- The body of the lambda that keeps one of two numbers. -/
def pickBody (op : Comparison) : List Value :=
  branch (call op.builtin.name [.symbol "a", .symbol "b"]) [.symbol "a"] [.symbol "b"]

/-- The body of a function that keeps one of its arguments. -/
def extremumBody (op : Comparison) : List Value :=
  [.symbol "foldl",
    call "\\" [.qexpr [.symbol "a", .symbol "b"], .qexpr (pickBody op)],
    call "fst" [.symbol "xs"], call "tail" [.symbol "xs"]]

/-- Numbers are final. -/
theorem isFinal_numbers (ds : List Decimal) :
    ∀ v ∈ ds.map Value.number, v.isFinal = true :=
  List.forall_mem_map.2 fun _ _ => rfl

end Prelude

namespace Context.Unconfined

open Prelude

variable {c : Context} {host : Host} {s : Store Value} {f : Value}

/-- A fold of numbers with a function that answers numbers with numbers. -/
theorem foldNumbers (h : c.Unconfined host s) {op : Decimal → Decimal → Decimal}
    (hf : ∀ a b, Responds host s f [.number a, .number b] [] (.number (op a b))) (d : Decimal)
    (ds : List Decimal) :
    c.Answers "foldl" [f, .number d, .qexpr (ds.map .number)] [] (.number (ds.foldl op d)) := by
  have hstep : ∀ x ∈ ds.map Value.number, ∀ z, (∃ a, z = .number a) →
      Responds host s f [z, x] [] (onNumbers op z x) ∧ ∃ a, onNumbers op z x = .number a := by
    rw [List.forall_mem_map]
    rintro b - _ ⟨a, rfl⟩
    exact ⟨hf a b, op a b, rfl⟩
  have hfold := h.foldl (isFinal_numbers ds) hstep ⟨d, rfl⟩
  have hresult : (ds.map Value.number).foldl (onNumbers op) (.number d)
      = .number (ds.foldl op d) := by
    rw [List.foldl_map]
    exact List.foldl_hom Value.number fun _ _ => rfl
  rwa [hresult] at hfold

/-- A function that folds a list of numbers with a builtin. -/
theorem aggregate (h : c.Unconfined host s) {g : Function} {b : Builtin} {start : Decimal}
    {op : Decimal → Decimal → Decimal} (hparams : g.params = ["l"])
    (hbody : g.body = [.symbol "foldl", .symbol b.name, .number start, .symbol "l"])
    (hop : ∀ x y f scope m, applyBuiltin f scope [.number x, .number y] b host m
      = some (.ok (.number (op x y)), m)) (ds : List Decimal) :
    c.Answers g.name [.qexpr (ds.map .number)] [] (.number (ds.foldl op start)) := by
  have hbound : Invoke.bindArguments .empty g.params [.qexpr (ds.map .number)]
      = .ok (⟨[("l", .qexpr (ds.map .number))]⟩, []) := by
    rw [hparams]
    rfl
  refine h.function g hbound fun c' henters h' => ⟨c', ?_⟩
  have hresponds (x y : Decimal) :
      Responds host s (.builtin b) [.number x, .number y] [] (.number (op x y)) := by
    intro c'' h''
    refine .builtin fun f m => ?_
    rw [h''.host_eq]
    exact hop x y f c''.scope m
  rw [hbody]
  exact (h'.foldNumbers hresponds start ds).call (.cons (.symbol (h'.builtin b))
    (.cons (.final rfl) (.cons (.symbol (henters.lookup rfl)) .nil)))

/-- The lambda that keeps one of two numbers, with its table in the store. -/
theorem responds_pick (op : Comparison) {captured : Scope} (hlt : captured.table < s.tables.size)
    (hempty : s.tableAt captured.table = .empty) (a b : Decimal) :
    Responds host s (.lambda ["a", "b"] (pickBody op) captured) [.number a, .number b] []
      (.number (op.pick a b)) := by
  intro c hc
  have hparams : ∀ p ∈ ["a", "b"], p ∉ reserved := by decide
  have hbound : Invoke.bindArguments .empty ["a", "b"] [.number a, .number b]
      = .ok (⟨[("a", .number a), ("b", .number b)]⟩, []) := rfl
  have hheld : c.store.tableAt captured.table = .empty :=
    (hc.store_extends.tableAt_eq _ hlt).trans hempty
  refine .lambda (Nat.lt_of_lt_of_le hlt hc.store_extends.size_le) (by rw [hheld]; exact hbound)
    (hc.trusts_all _) fun c' henters => ⟨c', ?_⟩
  have h' := hc.enterCall hparams hbound henters
  have ha : c'.Gives (.symbol "a") (.number a) := .symbol (henters.lookup rfl)
  have hb : c'.Gives (.symbol "b") (.number b) := .symbol (henters.lookup rfl)
  have htest := h'.callBuiltin op.builtin (.cons ha (.cons hb .nil)) fun g =>
    op.applyBuiltin_eq a b g c'.scope c'.host
  refine h'.branch htest ?_
  unfold Comparison.pick
  by_cases hholds : op.Holds a.value b.value
  · simp only [hholds, decide_true, if_true]
    exact .single ha
  · simp only [hholds, decide_false, Bool.false_eq_true, if_false]
    exact .single hb

/-- A function that keeps one of its arguments. -/
theorem extremum (h : c.Unconfined host s) (op : Comparison) {g : Function}
    (hparams : g.params = ["&", "xs"]) (hbody : g.body = extremumBody op) (d : Decimal)
    (ds : List Decimal) :
    c.Answers g.name (.number d :: ds.map .number) [] (.number (ds.foldl op.pick d)) := by
  have hbound : Invoke.bindArguments .empty g.params (.number d :: ds.map .number)
      = .ok (⟨[("xs", .qexpr (.number d :: ds.map .number))]⟩, []) := by
    rw [hparams]
    rfl
  refine (h.replies g hbound fun c' henters h' => ?_).answers
  have hxs : c'.get? "xs" = some (.qexpr (.number d :: ds.map .number)) := henters.lookup rfl
  have hfirst : c'.Gives (call "fst" [.symbol "xs"]) (.number d) :=
    (h'.fst fun _ _ _ => .final rfl).call (.cons (.symbol hxs) .nil)
  have hargs : c'.EvaluatesAll [call "fst" [.symbol "xs"], call "tail" [.symbol "xs"]] []
      [.number d, .qexpr (ds.map .number)] c' :=
    .cons hfirst (.cons (h'.tail (.symbol hxs)) .nil)
  obtain ⟨captured, hfoldl, -⟩ := h'.holds (function_mem_script .foldl)
  rw [hbody]
  show c'.Concludes (call "foldl" (call "\\" [.qexpr (["a", "b"].map .symbol), .qexpr (pickBody op)]
    :: [call "fst" [.symbol "xs"], call "tail" [.symbol "xs"]])) ([] ++ []) _
  refine .callLambda (h'.builtin .lambda) hfoldl hargs
    fun c'' held hsetting hextends hlt hempty => ?_
  -- the lambda is known in the store that has its table, so the fold is followed from there
  have h'' := h'.later hsetting hextends
  have hfold := h''.foldNumbers (responds_pick op hlt hempty) d ds
  have hends : c''.Replies "foldl" _ [] (· = .ok (.number (ds.foldl op.pick d))) :=
    hfold.replies rfl
  exact hends.ends ((h''.get?_function h'.toHasPrelude .foldl).trans hfoldl)

end Context.Unconfined

/-! ## At a machine -/

namespace Prelude.InForce

variable {m : Machine} {scope : Scope}

/-- Where the prelude is in force, `sum` and `product` of a list of numbers of any scales are
numbers whose values are the sum and the product of the values, and for every other order of the
list a number of the same value. `min` and `max` of one number or more are one of them, which is at
most, or at least, each of them. -/
theorem aggregates_numbers (h : InForce m.store scope) (host : Host) :
    (∀ ds : List Decimal, ∃ d : Decimal, d.value = (ds.map Decimal.value).sum
      ∧ m.Yields host scope (call "sum" [.qexpr (ds.map .number)]) [] (.number d)
      ∧ ∀ es : List Decimal, es.Perm ds → ∃ e : Decimal, e.value = d.value
        ∧ m.Yields host scope (call "sum" [.qexpr (es.map .number)]) [] (.number e))
    ∧ (∀ ds : List Decimal, ∃ d : Decimal, d.value = (ds.map Decimal.value).prod
      ∧ m.Yields host scope (call "product" [.qexpr (ds.map .number)]) [] (.number d)
      ∧ ∀ es : List Decimal, es.Perm ds → ∃ e : Decimal, e.value = d.value
        ∧ m.Yields host scope (call "product" [.qexpr (es.map .number)]) [] (.number e))
    ∧ ∀ (d : Decimal) (ds : List Decimal),
      (∃ r ∈ d :: ds, (∀ x ∈ d :: ds, r.value ≤ x.value)
        ∧ m.Yields host scope (call "min" ((d :: ds).map .number)) [] (.number r))
      ∧ ∃ r ∈ d :: ds, (∀ x ∈ d :: ds, r.value ≥ x.value)
        ∧ m.Yields host scope (call "max" ((d :: ds).map .number)) [] (.number r) := by
  have hsum (ds : List Decimal) : ∃ d : Decimal, d.value = (ds.map Decimal.value).sum
      ∧ m.Yields host scope (call "sum" [.qexpr (ds.map .number)]) [] (.number d) := by
    refine ⟨ds.foldl .add (.ofInt 0), ?_, .of_evaluates h fun c hc => ?_⟩
    · rw [Decimal.value_foldl_add, Decimal.value_ofInt, Int.cast_zero, zero_add]
    · exact (hc.aggregate (g := .sum) (b := .add) rfl rfl (fun _ _ _ _ _ => rfl) ds).call
        (.cons (.final rfl) .nil)
  have hproduct (ds : List Decimal) : ∃ d : Decimal, d.value = (ds.map Decimal.value).prod
      ∧ m.Yields host scope (call "product" [.qexpr (ds.map .number)]) [] (.number d) := by
    refine ⟨ds.foldl .mul (.ofInt 1), ?_, .of_evaluates h fun c hc => ?_⟩
    · rw [Decimal.value_foldl_mul, Decimal.value_ofInt, Int.cast_one, one_mul]
    · exact (hc.aggregate (g := .product) (b := .multiply) rfl rfl (fun _ _ _ _ _ => rfl) ds).call
        (.cons (.final rfl) .nil)
  refine ⟨fun ds => ?_, fun ds => ?_, fun d ds => ⟨?_, ?_⟩⟩
  · obtain ⟨d, hd, hyields⟩ := hsum ds
    refine ⟨d, hd, hyields, fun es hperm => ?_⟩
    obtain ⟨e, he, hyields'⟩ := hsum es
    exact ⟨e, by rw [he, hd, (hperm.map Decimal.value).sum_eq], hyields'⟩
  · obtain ⟨d, hd, hyields⟩ := hproduct ds
    refine ⟨d, hd, hyields, fun es hperm => ?_⟩
    obtain ⟨e, he, hyields'⟩ := hproduct es
    exact ⟨e, by rw [he, hd, (hperm.map Decimal.value).prod_eq], hyields'⟩
  · obtain ⟨hmem, hfirst⟩ := Comparison.foldl_pick (.inl (Eq.refl Comparison.less)) ds d
    refine ⟨_, hmem, fun x hx => not_lt.1 (hfirst x hx), .of_evaluates h fun c hc => ?_⟩
    exact (hc.extremum .less (g := .min) rfl rfl d ds).call (.final (isFinal_numbers (d :: ds)))
  · obtain ⟨hmem, hfirst⟩ := Comparison.foldl_pick (.inr (Eq.refl Comparison.greater)) ds d
    refine ⟨_, hmem, fun x hx => not_lt.1 (hfirst x hx), .of_evaluates h fun c hc => ?_⟩
    exact (hc.extremum .greater (g := .max) rfl rfl d ds).call (.final (isFinal_numbers (d :: ds)))

/-- Other scales, a zero, and factors that are one. -/
theorem aggregates_numbers_scales :
    ∃ m : Machine, InForce m.store root ∧ ∀ host : Host,
      (∃ d e : Decimal, d.value = 3 / 4 ∧ e.value = d.value
        ∧ m.Yields host root (call "sum" [.qexpr [.number ⟨50, 2⟩, .number ⟨0, 3⟩,
            .number ⟨25, 2⟩]]) [] (.number d)
        ∧ m.Yields host root (call "sum" [.qexpr [.number ⟨25, 2⟩, .number ⟨50, 2⟩,
            .number ⟨0, 3⟩]]) [] (.number e))
      ∧ (∃ d : Decimal, d.value = 5 / 2
        ∧ m.Yields host root (call "product" [.qexpr [.number ⟨10, 1⟩, .number ⟨250, 2⟩]]) []
            (.number d))
      ∧ (∃ r ∈ [⟨3, 0⟩, ⟨-15, 1⟩, (⟨-150, 2⟩ : Decimal)], r.value ≤ -3 / 2
        ∧ m.Yields host root (call "min" [.number ⟨3, 0⟩, .number ⟨-15, 1⟩, .number ⟨-150, 2⟩]) []
            (.number r)) := by
  obtain ⟨m, hm⟩ := exists_isLoaded
  have hforce := InForce.of_isLoaded hm
  refine ⟨m, hforce, fun host => ?_⟩
  obtain ⟨hsum, hproduct, hpick⟩ := aggregates_numbers hforce host
  obtain ⟨d, hd, hyields, hperm⟩ := hsum [⟨50, 2⟩, ⟨0, 3⟩, ⟨25, 2⟩]
  obtain ⟨e, he, hyields'⟩ := hperm [⟨25, 2⟩, ⟨50, 2⟩, ⟨0, 3⟩] (by decide)
  obtain ⟨p, hp, hyields'', -⟩ := hproduct [⟨10, 1⟩, ⟨250, 2⟩]
  obtain ⟨⟨r, hr, hleast, hmin⟩, -⟩ := hpick ⟨3, 0⟩ [⟨-15, 1⟩, ⟨-150, 2⟩]
  refine ⟨⟨d, e, ?_, he, hyields, hyields'⟩, ⟨p, ?_, hyields''⟩, r, hr, ?_, hmin⟩
  · rw [hd]
    norm_num [Decimal.value]
  · rw [hp]
    norm_num [Decimal.value]
  · refine (hleast ⟨-15, 1⟩ (by simp)).trans ?_
    norm_num [Decimal.value]

end Prelude.InForce

end QLisp
