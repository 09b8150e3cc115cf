import Mathlib
import QLisp.Proofs.Checks
import QLisp.Proofs.Currying
import QLisp.Proofs.DecimalValue

/-!
# Equality of values

Equality looks into lists, item by item, and has a notion of its own at each kind of leaf: numbers
are compared by value, whatever their scales, and lambdas by the table that they hold. Every lambda
is made with a table of its own, so this is the identity of lambdas: a new one is equal to nothing
that there was (`Machine.Makes.same_eq_false`).

`Value.Alike` says what equality is without computing it. Values that are alike make lists that are
alike, and the builtins for lists take these to lists that are alike again. The statement is
`Value.same_is_congruence`.
-/

set_option autoImplicit false

namespace QLisp

namespace Value

/-! ## Values that are alike -/

/-- Numbers of one value, lists whose items are alike, lambdas that hold one table, and otherwise
the same value twice. -/
inductive Alike : Value → Value → Prop
  | number {a b : Decimal} (h : a.value = b.value) : Alike (.number a) (.number b)
  | text (content : String) : Alike (.text content) (.text content)
  | symbol (name : String) : Alike (.symbol name) (.symbol name)
  | sexpr {vs ws : List Value} (h : List.Forall₂ Alike vs ws) : Alike (.sexpr vs) (.sexpr ws)
  | qexpr {vs ws : List Value} (h : List.Forall₂ Alike vs ws) : Alike (.qexpr vs) (.qexpr ws)
  | builtin (b : Builtin) : Alike (.builtin b) (.builtin b)
  | lambda {params params' : List String} {body body' : List Value} {captured captured' : Scope}
    (h : captured.table = captured'.table) :
    Alike (.lambda params body captured) (.lambda params' body' captured')

mutual

/-- Values that are alike are equal. -/
theorem same_of_alike {v w : Value} (h : v.Alike w) : v.same w = true := by
  cases h with
  | number h => exact (Decimal.same_iff_value_eq _ _).2 h
  | text content => exact beq_self_eq_true content
  | symbol name => exact beq_self_eq_true name
  | sexpr h => exact sameAll_of_forall₂_alike h
  | qexpr h => exact sameAll_of_forall₂_alike h
  | builtin b => exact beq_self_eq_true b
  | lambda h => exact beq_iff_eq.2 h

/-- Lists of values that are pairwise alike are equal. -/
theorem sameAll_of_forall₂_alike {vs ws : List Value} (h : List.Forall₂ Alike vs ws) :
    sameAll vs ws = true := by
  cases h with
  | nil => rfl
  | cons h hs =>
    rw [sameAll, Bool.and_eq_true]
    exact ⟨same_of_alike h, sameAll_of_forall₂_alike hs⟩

end

mutual

/-- Equal values are alike. -/
theorem alike_of_same {v w : Value} (h : v.same w = true) : v.Alike w := by
  unfold same at h
  split at h
  · exact .number ((Decimal.same_iff_value_eq _ _).1 h)
  · rw [eq_of_beq h]
    exact .text _
  · rw [eq_of_beq h]
    exact .symbol _
  · exact .sexpr (forall₂_alike_of_sameAll h)
  · exact .qexpr (forall₂_alike_of_sameAll h)
  · rw [eq_of_beq h]
    exact .builtin _
  · exact .lambda (eq_of_beq h)
  · cases h

/-- Equal lists have items that are pairwise alike. -/
theorem forall₂_alike_of_sameAll {vs ws : List Value} (h : sameAll vs ws = true) :
    List.Forall₂ Alike vs ws := by
  unfold sameAll at h
  split at h
  · exact .nil
  · rw [Bool.and_eq_true] at h
    exact .cons (alike_of_same h.1) (forall₂_alike_of_sameAll h.2)
  · cases h

end

/-- Values are equal exactly if they are alike. -/
theorem same_iff_alike {v w : Value} : v.same w = true ↔ v.Alike w :=
  ⟨alike_of_same, same_of_alike⟩

/-! ## An equivalence -/

mutual

/-- Every value is alike to itself. -/
theorem Alike.refl (v : Value) : v.Alike v := by
  cases v with
  | number n => exact .number rfl
  | text content => exact .text content
  | symbol name => exact .symbol name
  | sexpr items => exact .sexpr (forall₂_alike_refl items)
  | qexpr items => exact .qexpr (forall₂_alike_refl items)
  | builtin b => exact .builtin b
  | lambda params body captured => exact .lambda rfl

/-- The items of a list are alike to themselves. -/
theorem forall₂_alike_refl (vs : List Value) : List.Forall₂ Alike vs vs := by
  cases vs with
  | nil => exact .nil
  | cons v vs => exact .cons (Alike.refl v) (forall₂_alike_refl vs)

end

mutual

/-- Being alike does not depend on the order. -/
theorem Alike.symm {v w : Value} (h : v.Alike w) : w.Alike v := by
  cases h with
  | number h => exact .number h.symm
  | text content => exact .text content
  | symbol name => exact .symbol name
  | sexpr h => exact .sexpr (forall₂_alike_symm h)
  | qexpr h => exact .qexpr (forall₂_alike_symm h)
  | builtin b => exact .builtin b
  | lambda h => exact .lambda h.symm

/-- Being pairwise alike does not depend on the order. -/
theorem forall₂_alike_symm {vs ws : List Value} (h : List.Forall₂ Alike vs ws) :
    List.Forall₂ Alike ws vs := by
  cases h with
  | nil => exact .nil
  | cons h hs => exact .cons h.symm (forall₂_alike_symm hs)

end

mutual

/-- What is alike to the same value is alike. -/
theorem Alike.trans {u v w : Value} (h : u.Alike v) (h' : v.Alike w) : u.Alike w := by
  cases h with
  | number h =>
    cases h' with
    | number h' => exact .number (h.trans h')
  | sexpr h =>
    cases h' with
    | sexpr h' => exact .sexpr (forall₂_alike_trans h h')
  | qexpr h =>
    cases h' with
    | qexpr h' => exact .qexpr (forall₂_alike_trans h h')
  | lambda h =>
    cases h' with
    | lambda h' => exact .lambda (h.trans h')
  | text | symbol | builtin => exact h'

/-- What is pairwise alike to the same values is pairwise alike. -/
theorem forall₂_alike_trans {us vs ws : List Value} (h : List.Forall₂ Alike us vs)
    (h' : List.Forall₂ Alike vs ws) : List.Forall₂ Alike us ws := by
  cases h with
  | nil => exact h'
  | cons h hs =>
    cases h' with
    | cons h' hs' => exact .cons (h.trans h') (forall₂_alike_trans hs hs')

end

/-- Being alike is an equivalence relation. -/
theorem alike_equivalence : Equivalence Alike :=
  ⟨.refl, .symm, .trans⟩

/-- Every value is equal to itself. -/
theorem same_refl (v : Value) : v.same v = true :=
  same_of_alike (.refl v)

/-- Equality does not depend on the order. -/
theorem same_comm (v w : Value) : v.same w = w.same v := by
  rw [Bool.eq_iff_iff, same_iff_alike, same_iff_alike]
  exact ⟨.symm, .symm⟩

end Value

/-! ## The identity of lambdas -/

namespace Machine

/-- The lambdas that can be made next: one that `\` makes, or one that is left of a call with too
few arguments. -/
inductive Makes (m : Machine) : Value → Prop
  | written {evaluate : Evaluator} {scope : Scope} {args : List Value} {host : Host} {r : Value}
    {m' : Machine}
    (h : Eval.applyBuiltin evaluate scope args .lambda host m = some (.ok r, m')) : Makes m r
  | applied {evaluate : Evaluator} {params left : List String} {body : List Value}
    {captured caller : Scope} {args : List Value} {host : Host} {table : Table Value} {r : Value}
    {m' : Machine}
    (hbound : Invoke.bindArguments (m.store.tableAt captured.table) params args = .ok (table, left))
    (hleft : left ≠ [])
    (h : Invoke.invoke evaluate params body captured args caller host m = some (.ok r, m')) :
    Makes m r

/-- A new lambda holds the next table. -/
theorem Makes.exists_table_eq {m : Machine} {r : Value} (h : m.Makes r) :
    ∃ (params : List String) (body : List Value) (captured : Scope),
      r = .lambda params body captured ∧ captured.table = m.store.tables.size := by
  cases h with
  | @written evaluate scope args host _ m' h =>
    cases hparts : Primitive.lambdaParts args with
    | error e =>
      rw [Eval.applyBuiltin, Builtin.deed, Deed.perform, Interp.bind_apply, Interp.ofExcept,
        hparts] at h
      cases h
    | ok parts =>
      rw [Eval.applyBuiltin, Builtin.deed, Deed.perform, Interp.bind_apply, Interp.ofExcept,
        hparts] at h
      cases h
      exact ⟨_, _, _, rfl, rfl⟩
  | applied hbound hleft h =>
    rw [Invoke.invoke_of_bound _ _ _ _ _ _ hbound hleft] at h
    cases h
    exact ⟨_, _, _, rfl, rfl⟩

/-- A new lambda is equal to no value that mentions only tables that are already there. -/
theorem Makes.same_eq_false {m : Machine} {r v : Value} (h : m.Makes r)
    (hv : v.Below m.store.tables.size) : v.same r = false := by
  obtain ⟨params, body, captured, rfl, htable⟩ := h.exists_table_eq
  rw [← Bool.not_eq_true, Value.same_iff_alike]
  intro halike
  cases halike with
  | lambda heq =>
    have hless := (Value.below_lambda_iff.1 hv).2 _ List.mem_cons_self
    omega

end Machine

/-! ## Lists of values that are alike -/

namespace Builtin

/-- Applied to the arguments in whatever scope, a builtin has the result and no effect. -/
def Gives (b : Builtin) (args : List Value) (r : Value) : Prop :=
  ∀ (evaluate : Evaluator) (scope : Scope) (host : Host) (m : Machine),
    Eval.applyBuiltin evaluate scope args b host m = some (.ok r, m)

/-- A builtin has results for two lists of arguments, and the results are equal. -/
def Respects (b : Builtin) (args args' : List Value) : Prop :=
  ∃ r r' : Value, b.Gives args r ∧ b.Gives args' r' ∧ r.same r' = true

variable {vs ws : List Value} (h : List.Forall₂ Value.Alike vs ws)

include h

/-- The heads of lists that are alike are equal. -/
theorem head_respects : Builtin.head.Respects [.qexpr vs] [.qexpr ws] :=
  ⟨_, _, fun _ _ _ _ => rfl, fun _ _ _ _ => rfl,
    Value.same_of_alike (.qexpr (List.forall₂_take 1 h))⟩

/-- The tails of lists that are alike are equal. -/
theorem tail_respects : Builtin.tail.Respects [.qexpr vs] [.qexpr ws] :=
  ⟨_, _, fun _ _ _ _ => rfl, fun _ _ _ _ => rfl,
    Value.same_of_alike (.qexpr (List.forall₂_drop 1 h))⟩

/-- Lists of values that are alike are equal. -/
theorem list_respects : Builtin.list.Respects vs ws :=
  ⟨_, _, fun _ _ _ _ => rfl, fun _ _ _ _ => rfl, Value.same_of_alike (.qexpr h)⟩

omit h

/-- Joining lists gives the list of all their items. -/
theorem gives_join (lists : List (List Value)) :
    Builtin.join.Gives (lists.map .qexpr) (.qexpr lists.flatten) := by
  intro evaluate scope host m
  rw [Eval.applyBuiltin, Builtin.deed, Deed.perform, Primitive.join,
    Primitive.forAll_of_form (Primitive.expectList .join) .qexpr (fun _ => rfl)]
  rfl

/-- Joined lists that are pairwise alike are equal. -/
theorem join_respects {lists lists' : List (List Value)}
    (h : List.Forall₂ (List.Forall₂ Value.Alike) lists lists') :
    Builtin.join.Respects (lists.map .qexpr) (lists'.map .qexpr) :=
  ⟨_, _, gives_join lists, gives_join lists', Value.same_of_alike (.qexpr (List.rel_flatten h))⟩

end Builtin

namespace Value

/-- Equality of values, which `==` tells and `!=` denies, is an equivalence relation at any depth of
lists in lists. It compares numbers by value, whatever their scales, and lambdas by identity: those
that hold one table are equal, and a lambda that is made anew is equal to nothing before it. The
builtins for lists respect it. -/
theorem same_is_congruence :
    Equivalence (fun v w : Value => v.same w = true)
    ∧ (∀ v w : Value, v.same w = true ↔ v.Alike w)
    ∧ (∀ v w : Value, Builtin.equal.Gives [v, w] (.ofBool (v.same w))
      ∧ Builtin.unequal.Gives [v, w] (.ofBool (!v.same w)))
    ∧ (∀ (m : Machine) (r v : Value), m.Makes r → v.Below m.store.tables.size → v.same r = false)
    ∧ (∀ xs ys us vs : List Value, (qexpr xs).same (qexpr ys) = true →
      (qexpr us).same (qexpr vs) = true →
      Builtin.head.Respects [qexpr xs] [qexpr ys]
      ∧ Builtin.tail.Respects [qexpr xs] [qexpr ys]
      ∧ Builtin.join.Respects [qexpr xs, qexpr us] [qexpr ys, qexpr vs]
      ∧ Builtin.list.Respects [qexpr xs, qexpr us] [qexpr ys, qexpr vs]) := by
  refine ⟨?_, fun v w => same_iff_alike, fun v w => ⟨fun _ _ _ _ => rfl, fun _ _ _ _ => rfl⟩,
    fun m r v hr hv => hr.same_eq_false hv, ?_⟩
  · simp only [same_iff_alike]
    exact alike_equivalence
  · intro xs ys us vs hxs hus
    have hitems : ∀ {items items' : List Value}, (qexpr items).same (qexpr items') = true →
        List.Forall₂ Alike items items' := fun h => forall₂_alike_of_sameAll h
    refine ⟨Builtin.head_respects (hitems hxs), Builtin.tail_respects (hitems hxs), ?_, ?_⟩
    · exact Builtin.join_respects (.cons (hitems hxs) (.cons (hitems hus) .nil))
    · exact Builtin.list_respects (.cons (alike_of_same hxs) (.cons (alike_of_same hus) .nil))

/-- `{2 {100}}` and a list with other scales of the same numbers are taken for one another; a lambda
that is written twice makes two lambdas. -/
theorem same_is_congruence_scales :
    Builtin.join.Respects
      [qexpr [number ⟨2, 0⟩, qexpr [number ⟨100, 0⟩]], qexpr [text "a"]]
      [qexpr [number ⟨20, 1⟩, qexpr [number ⟨1, -2⟩]], qexpr [text "a"]]
    ∧ Builtin.equal.Gives [number ⟨2, 0⟩, number ⟨20, 1⟩] (number ⟨1, 0⟩)
    ∧ Machine.withBuiltins.1.Makes (lambda ["x"] [symbol "x"] ⟨1, [0]⟩)
    ∧ (lambda ["x"] [symbol "x"] ⟨0, []⟩).same (lambda ["x"] [symbol "x"] ⟨1, [0]⟩) = false := by
  obtain ⟨-, -, htests, hnew, hrespects⟩ := same_is_congruence
  have hmakes : Machine.withBuiltins.1.Makes (lambda ["x"] [symbol "x"] ⟨1, [0]⟩) :=
    @Machine.Makes.written _ (fun _ _ => Interp.tooDeep) ⟨0, []⟩
      [qexpr [symbol "x"], qexpr [symbol "x"]] (fun _ => .input) _ _ rfl
  have hbelow : (lambda ["x"] [symbol "x"] ⟨0, []⟩).Below
      Machine.withBuiltins.1.store.tables.size := rfl
  refine ⟨?_, (htests _ _).1, hmakes, hnew _ _ _ hmakes hbelow⟩
  exact (hrespects _ _ [text "a"] [text "a"] (by decide) (by decide)).2.2.1

end Value

end QLisp
