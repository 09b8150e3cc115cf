import QLisp.Proofs.DecimalArithmetic
import QLisp.Proofs.Prelude.Lists

/-!
# Conditions

A comparison is one or zero, and the connectives of the prelude compute with these numbers: `or`
adds them, `and` multiplies them, `not` takes them from one. `if` takes every number but zero for
truth, so a sum of two truths is as good as one of them; but one less two is not zero, and `not` of
it is taken for truth again.

`Condition.number` is the number that a condition is evaluated to, `Condition.Holds` its classical
meaning. The two agree in a condition and in all its parts if and only if `not` is applied to zeros
and ones only (`Condition.all_agree_iff`). The statement about evaluation is
`Prelude.InForce.branches_on_number`.
-/

set_option autoImplicit false

namespace QLisp

/-- The comparisons of numbers. -/
inductive Comparison where
  | equal
  | unequal
  | less
  | lessEq
  | greater
  | greaterEq

namespace Comparison

/-- The builtin that makes a comparison. -/
def builtin : Comparison → Builtin
  | equal => .equal
  | unequal => .unequal
  | less => .less
  | lessEq => .lessEq
  | greater => .greater
  | greaterEq => .greaterEq

/-- What a comparison says of two numbers. -/
def Holds : Comparison → ℚ → ℚ → Prop
  | equal, x, y => x = y
  | unequal, x, y => x ≠ y
  | less, x, y => x < y
  | lessEq, x, y => x ≤ y
  | greater, x, y => x > y
  | greaterEq, x, y => x ≥ y

/-- Whether a comparison holds can be told. -/
instance (op : Comparison) (x y : ℚ) : Decidable (op.Holds x y) :=
  match op with
  | equal => inferInstanceAs (Decidable (x = y))
  | unequal => inferInstanceAs (Decidable (x ≠ y))
  | less => inferInstanceAs (Decidable (x < y))
  | lessEq => inferInstanceAs (Decidable (x ≤ y))
  | greater => inferInstanceAs (Decidable (x > y))
  | greaterEq => inferInstanceAs (Decidable (x ≥ y))

/-- A comparison is made by value. -/
theorem applyBuiltin_eq (op : Comparison) (a b : Decimal) (evaluate : Evaluator) (scope : Scope)
    (host : Host) (m : Machine) :
    Eval.applyBuiltin evaluate scope [.number a, .number b] op.builtin host m
      = some (.ok (.ofBool (op.Holds a.value b.value)), m) := by
  have hless (x y : Decimal) : x.less y = decide (x.value < y.value) := by
    rw [Bool.eq_iff_iff, Decimal.less_iff_value_lt, decide_eq_true_iff]
  have hlessEq (x y : Decimal) : x.lessEq y = decide (x.value ≤ y.value) := by
    rw [Bool.eq_iff_iff, Decimal.lessEq_iff_value_le, decide_eq_true_iff]
  cases op with
  | equal =>
    show some (Except.ok (Value.ofBool (a.same b)), m) = _
    rw [Decimal.same_eq_decide]
    rfl
  | unequal =>
    show some (Except.ok (Value.ofBool (!a.same b)), m) = _
    rw [Decimal.same_eq_decide, ← decide_not]
    rfl
  | less =>
    show some (Except.ok (Value.ofBool (a.less b)), m) = _
    rw [hless]
    rfl
  | lessEq =>
    show some (Except.ok (Value.ofBool (a.lessEq b)), m) = _
    rw [hlessEq]
    rfl
  | greater =>
    show some (Except.ok (Value.ofBool (b.less a)), m) = _
    rw [hless]
    rfl
  | greaterEq =>
    show some (Except.ok (Value.ofBool (b.lessEq a)), m) = _
    rw [hlessEq]
    rfl

end Comparison

/-- Comparisons of numbers, put together by the connectives of the prelude. -/
inductive Condition where
  | compare (op : Comparison) (a b : Decimal)
  | not (e : Condition)
  | or (d e : Condition)
  | and (d e : Condition)

namespace Condition

/-- A condition as code. -/
def code : Condition → Value
  | compare op a b => Prelude.call op.builtin.name [.number a, .number b]
  | not e => Prelude.call "not" [e.code]
  | or d e => Prelude.call "or" [d.code, e.code]
  | and d e => Prelude.call "and" [d.code, e.code]

/-- What a condition says. -/
def Holds : Condition → Prop
  | compare op a b => op.Holds a.value b.value
  | not e => ¬ e.Holds
  | or d e => d.Holds ∨ e.Holds
  | and d e => d.Holds ∧ e.Holds

/-- The number that the connectives compute. -/
def number : Condition → ℤ
  | compare op a b => if op.Holds a.value b.value then 1 else 0
  | not e => 1 - e.number
  | or d e => d.number + e.number
  | and d e => d.number * e.number

/-- A condition and those that it is put together from. -/
def parts : Condition → List Condition
  | compare op a b => [compare op a b]
  | not e => not e :: e.parts
  | or d e => or d e :: (d.parts ++ e.parts)
  | and d e => and d e :: (d.parts ++ e.parts)

/-- `if` takes the number of a condition for truth exactly when the condition holds. -/
def Agrees (e : Condition) : Prop :=
  e.number ≠ 0 ↔ e.Holds

/-- In a condition, `not` is applied to zeros and ones only. -/
def NegatesTruthValues (e : Condition) : Prop :=
  ∀ d, not d ∈ e.parts → d.number = 0 ∨ d.number = 1

/-- A condition is a part of itself. -/
theorem mem_parts_self (e : Condition) : e ∈ e.parts := by
  cases e <;> simp [parts]

/-- Parts of parts are parts. -/
theorem parts_subset {d e : Condition} (h : d ∈ e.parts) : d.parts ⊆ e.parts := by
  induction e with
  | compare op a b =>
    rw [parts, List.mem_singleton] at h
    rw [h]
    exact List.Subset.refl _
  | not e ih =>
    rcases List.mem_cons.1 h with rfl | h
    · exact List.Subset.refl _
    · exact List.Subset.trans (ih h) (List.subset_cons_self _ _)
  | or e e' ih ih' | and e e' ih ih' =>
    rcases List.mem_cons.1 h with rfl | h
    · exact List.Subset.refl _
    · refine List.Subset.trans ?_ (List.subset_cons_self _ _)
      rcases List.mem_append.1 h with h | h
      · exact List.Subset.trans (ih h) (List.subset_append_left _ _)
      · exact List.Subset.trans (ih' h) (List.subset_append_right _ _)

/-- The parts of a condition negate truth values if it does. -/
theorem NegatesTruthValues.part {d e : Condition} (h : e.NegatesTruthValues) (hd : d ∈ e.parts) :
    d.NegatesTruthValues :=
  fun e' he' => h e' (parts_subset hd he')

/-- With `not` for zeros and ones only, no number is negative, so no sum of truths is zero. -/
theorem NegatesTruthValues.agrees {e : Condition} (h : e.NegatesTruthValues) :
    0 ≤ e.number ∧ e.Agrees := by
  induction e with
  | compare op a b =>
    simp only [number, Agrees, Holds]
    split <;> simp [*]
  | not e ih =>
    obtain ⟨-, he⟩ := ih (h.part (by simp [parts, mem_parts_self]))
    simp only [Agrees, Holds, number] at he ⊢
    rw [← he]
    rcases h e (mem_parts_self _) with hzero | hone
    · simp [hzero]
    · simp [hone]
  | or d e ihd ihe =>
    obtain ⟨hd, hdtrue⟩ := ihd (h.part (by simp [parts, mem_parts_self]))
    obtain ⟨he, hetrue⟩ := ihe (h.part (by simp [parts, mem_parts_self]))
    simp only [Agrees, Holds, number] at hdtrue hetrue ⊢
    rw [← hdtrue, ← hetrue]
    omega
  | and d e ihd ihe =>
    obtain ⟨hd, hdtrue⟩ := ihd (h.part (by simp [parts, mem_parts_self]))
    obtain ⟨he, hetrue⟩ := ihe (h.part (by simp [parts, mem_parts_self]))
    simp only [Agrees, Holds, number] at hdtrue hetrue ⊢
    rw [← hdtrue, ← hetrue]
    exact ⟨mul_nonneg hd he, mul_ne_zero_iff⟩

/-- Where a condition agrees, its negation agrees only if the number is zero or one. -/
theorem number_of_agrees_not {e : Condition} (h : e.Agrees) (hnot : (not e).Agrees) :
    e.number = 0 ∨ e.number = 1 := by
  simp only [Agrees, Holds, number] at h hnot
  rw [← h] at hnot
  omega

/-- A condition and all its parts are taken for what they say if and only if `not` is applied to
zeros and ones only. -/
theorem all_agree_iff (e : Condition) : (∀ d ∈ e.parts, d.Agrees) ↔ e.NegatesTruthValues := by
  constructor
  · intro h d hd
    have hpart : d ∈ e.parts := parts_subset hd (by simp [parts, mem_parts_self])
    exact number_of_agrees_not (h d hpart) (h (not d) hd)
  · intro h d hd
    exact (h.part hd).agrees.2

end Condition

/-! ## Evaluation -/

namespace Context.HasPrelude

open Prelude

variable {c : Context}

/-- `not` answers one minus the number. -/
theorem not (h : c.HasPrelude) (n : Decimal) :
    c.Answers "not" [.number n] [] (.number ((Decimal.ofInt 1).sub n)) := by
  refine h.function .not rfl fun c' henters h' => ⟨c', ?_⟩
  exact h'.subtract (.final rfl) (.symbol (henters.lookup rfl))

/-- A product of two numbers. -/
theorem multiply (h : c.HasPrelude) {a b : Value} {m n : Decimal} (ha : c.Gives a (.number m))
    (hb : c.Gives b (.number n)) : c.Gives (call "*" [a, b]) (.number (m.mul n)) :=
  h.callBuiltin .multiply (.cons ha (.cons hb .nil)) fun _ _ => rfl

/-- `and` answers the product of two numbers. -/
theorem and (h : c.HasPrelude) (m n : Decimal) :
    c.Answers "and" [.number m, .number n] [] (.number (m.mul n)) := by
  refine h.function .and rfl fun c' henters h' => ⟨c', ?_⟩
  exact h'.multiply (.symbol (henters.lookup rfl)) (.symbol (henters.lookup rfl))

/-- A condition is evaluated to its number. -/
theorem condition (h : c.HasPrelude) (e : Condition) :
    ∃ n : Decimal, n.value = e.number ∧ c.Gives e.code (.number n) := by
  induction e with
  | compare op a b =>
    refine ⟨.ofInt (if op.Holds a.value b.value then 1 else 0), Decimal.value_ofInt _, ?_⟩
    have hargs : c.EvaluatesAll [.number a, .number b] [] [.number a, .number b] c :=
      .cons (.final rfl) (.cons (.final rfl) .nil)
    have hcall := h.callBuiltin op.builtin hargs fun f => op.applyBuiltin_eq a b f c.scope c.host
    simp only [Value.ofBool, decide_eq_true_eq] at hcall
    exact hcall
  | not e ih =>
    obtain ⟨n, hn, hgives⟩ := ih
    refine ⟨_, ?_, (h.not n).call (.cons hgives .nil)⟩
    rw [Decimal.value_sub, Decimal.value_ofInt, hn, Condition.number]
    push_cast
    rfl
  | or d e ihd ihe =>
    obtain ⟨m, hm, hfirst⟩ := ihd
    obtain ⟨n, hn, hsecond⟩ := ihe
    refine ⟨_, ?_, (h.or m n).call (.cons hfirst (.cons hsecond .nil))⟩
    rw [Decimal.value_add, hm, hn, Condition.number, Int.cast_add]
  | and d e ihd ihe =>
    obtain ⟨m, hm, hfirst⟩ := ihd
    obtain ⟨n, hn, hsecond⟩ := ihe
    refine ⟨_, ?_, (h.and m n).call (.cons hfirst (.cons hsecond .nil))⟩
    rw [Decimal.value_mul, hm, hn, Condition.number, Int.cast_mul]

end Context.HasPrelude

namespace Prelude.InForce

open Context

variable {m : Machine} {scope : Scope}

/-- A branch goes by whether the number of the condition is zero. -/
theorem yields_branch (h : InForce m.store scope) (host : Host) (e : Condition) :
    m.Yields host scope (.sexpr (branch e.code [integer 1] [integer 0])) []
      (integer (if e.number ≠ 0 then 1 else 0)) := by
  refine .of_evaluates h fun c hc => ?_
  obtain ⟨n, hn, hgives⟩ := hc.condition e
  refine Evaluates.branch (hc.builtin .branch) hgives ?_
  have hzero : n.isZero = decide (e.number = 0) := by
    rw [Bool.eq_iff_iff, Decimal.isZero_iff_value_eq_zero, hn, Int.cast_eq_zero,
      decide_eq_true_iff]
  by_cases he : e.number = 0
  · simp only [hzero, he, decide_true, if_true, ne_eq, not_true_eq_false, if_false]
    exact .single (.final rfl)
  · simp only [hzero, he, decide_false, Bool.false_eq_true, if_false, ne_eq, not_false_eq_true,
      if_true]
    exact .single (.final rfl)

/-- Where the prelude is in force, `if` with a condition of any depth takes the first branch exactly
when the number of the condition is not zero. For a condition and all its parts this is the case
exactly when they hold, if and only if `not` is applied to zeros and ones only. -/
theorem branches_on_number (h : InForce m.store scope) (host : Host) (e : Condition) :
    m.Yields host scope (.sexpr (branch e.code [integer 1] [integer 0])) []
      (integer (if e.number ≠ 0 then 1 else 0))
    ∧ ((∀ d ∈ e.parts, (d.number ≠ 0 ↔ d.Holds))
      ↔ ∀ d, .not d ∈ e.parts → d.number = 0 ∨ d.number = 1) :=
  ⟨h.yields_branch host e, e.all_agree_iff⟩

/-- A sum of two truths is taken for truth. -/
theorem branches_on_number_sum :
    ∃ m : Machine, InForce m.store root ∧ ∀ host : Host,
      m.Yields host root (.sexpr (branch (call "or" [call "<" [integer 1, integer 2],
        call "not" [call "==" [integer 1, .number ⟨20, 1⟩]]]) [integer 1] [integer 0])) []
        (integer 1) := by
  obtain ⟨m, hm⟩ := exists_isLoaded
  have hforce := InForce.of_isLoaded hm
  refine ⟨m, hforce, fun host => ?_⟩
  let e : Condition := .or (.compare .less (.ofInt 1) (.ofInt 2))
    (.not (.compare .equal (.ofInt 1) ⟨20, 1⟩))
  have hnumber : e.number = 2 := by
    norm_num [e, Condition.number, Comparison.Holds, Decimal.value, Decimal.ofInt]
  have hyields := (branches_on_number hforce host e).1
  rw [hnumber] at hyields
  exact hyields

/-- The negation of a sum of two truths is taken for truth, though it does not hold. -/
theorem negated_sum_is_taken :
    ∃ (m : Machine) (e : Condition), InForce m.store root
      ∧ e.code = call "not" [call "or" [call "==" [integer 1, integer 1],
          call "==" [integer 2, integer 2]]]
      ∧ (∀ host : Host, m.Yields host root (.sexpr (branch e.code [integer 1] [integer 0])) []
          (integer 1))
      ∧ ¬ e.Holds := by
  obtain ⟨m, hm⟩ := exists_isLoaded
  have hforce := InForce.of_isLoaded hm
  let e : Condition := .not (.or (.compare .equal (.ofInt 1) (.ofInt 1))
    (.compare .equal (.ofInt 2) (.ofInt 2)))
  have hnumber : e.number = -1 := by simp [e, Condition.number, Comparison.Holds]
  refine ⟨m, e, hforce, rfl, fun host => ?_, ?_⟩
  · have hyields := hforce.yields_branch host e
    rw [hnumber] at hyields
    exact hyields
  · simp [e, Condition.Holds, Comparison.Holds]

end Prelude.InForce

end QLisp
