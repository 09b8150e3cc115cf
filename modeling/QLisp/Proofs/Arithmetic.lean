import QLisp.Proofs.Checks
import QLisp.Proofs.DecimalArithmetic
import QLisp.Proofs.TailCall

/-!
# Arithmetic on argument lists

The four arithmetic builtins are one fold with different steps. The arguments are looked at before
anything is computed: there has to be one, and all have to be numbers. Then the steps are made from
left to right, where a single argument of `-` and `/` comes after a number of the builtin's own.
Only the step of `/` can fail, and it does so exactly for a divisor of value zero, whatever the
number that is divided.

`Operation.Refuses` lists the arguments for which an operation fails, `Operation.operands` are the
numbers that are folded otherwise. The steps of `+`, `-` and `*` are exact, whatever they do to the
scale, and so is their fold (`Operation.value_of_foldlM`). The statement is
`Operation.folds_exactly`.
-/

set_option autoImplicit false

namespace QLisp

/-- The operations of arithmetic. -/
inductive Operation where
  | add
  | subtract
  | multiply
  | divide

namespace Operation

/-- The builtin that makes an operation. -/
def builtin : Operation → Builtin
  | add => .add
  | subtract => .subtract
  | multiply => .multiply
  | divide => .divide

/-- One step of an operation; a quotient may not exist. -/
def step : Operation → Decimal → Decimal → Option Decimal
  | add, a, b => some (a.add b)
  | subtract, a, b => some (a.sub b)
  | multiply, a, b => some (a.mul b)
  | divide, a, b => a.divide? b

/-- The operation on rational numbers. -/
def exact : Operation → ℚ → ℚ → ℚ
  | add, x, y => x + y
  | subtract, x, y => x - y
  | multiply, x, y => x * y
  | divide, x, y => x / y

/-- The number that comes before a single argument. -/
def start : Operation → Option Decimal
  | subtract => some (.ofInt 0)
  | divide => some (.ofInt 1)
  | _ => none

/-- The number that a fold starts from and those that it takes one by one, for the arguments `n`
and `ns`. -/
def operands (op : Operation) (n : Decimal) (ns : List Decimal) : Decimal × List Decimal :=
  match op.start, ns with
  | some a, [] => (a, [n])
  | _, _ => (n, ns)

/-- One step of an operation, where the error says why there is no result. -/
def attempt (op : Operation) (a b : Decimal) : Primitive.Outcome Decimal :=
  match op.step a b with
  | some c => .ok c
  | none => .error .divisionByZero

/-- The builtin of the operation, applied to the arguments in whatever scope, ends with the outcome
and has no effect. -/
def Answers (op : Operation) (args : List Value) (outcome : Except EvalError Value) : Prop :=
  ∀ (evaluate : Evaluator) (scope : Scope) (host : Host) (m : Machine),
    Eval.applyBuiltin evaluate scope args op.builtin host m = some (outcome, m)

/-- The arguments for which an operation fails: none at all; numbers and then something else, which
the error shows; and, for a division, numbers with a divisor of value zero. -/
inductive Refuses (op : Operation) : List Value → EvalError → Prop
  | noArguments : Refuses op [] (.arity (.noArguments op.builtin))
  | notNumber (ns : List Decimal) {v : Value} (hv : ∀ n, v ≠ .number n) (after : List Value) :
    Refuses op (ns.map .number ++ v :: after) (.type (.notNumber op.builtin v.shown))
  | zeroDivisor {n : Decimal} {ns : List Decimal} (hop : op = divide)
    (hzero : ∃ d ∈ (op.operands n ns).2, d.value = 0) :
    Refuses op ((n :: ns).map .number) .divisionByZero

end Operation

/-! ## One fold for all -/

/-- Different lists of decimals are different lists of values. -/
theorem Value.map_number_injective : Function.Injective (List.map Value.number) :=
  List.map_injective_iff.2 fun _ _ h => Value.number.inj h

/-- Arguments are numbers, or there is a first one among them that is none. -/
theorem Primitive.numbers_or_first (args : List Value) :
    (∃ ns : List Decimal, args = ns.map .number) ∨
      ∃ (ns : List Decimal) (v : Value) (after : List Value),
        args = ns.map .number ++ v :: after ∧ ∀ n, v ≠ .number n :=
  eq_map_or_first Value.number args

namespace Operation

variable {op : Operation}

/-- The application of an operation has no effect and answers what its fold gives. -/
theorem applyBuiltin_eq (op : Operation) (args : List Value) (evaluate : Evaluator) (scope : Scope)
    (host : Host) (m : Machine) :
    Eval.applyBuiltin evaluate scope args op.builtin host m
      = some (Primitive.arithmetic op.builtin op.start op.attempt args, m) := by
  cases op <;> rfl

/-- An operation has exactly one outcome, which is that of its fold. -/
theorem answers_iff {args : List Value} {outcome : Except EvalError Value} :
    op.Answers args outcome
      ↔ Primitive.arithmetic op.builtin op.start op.attempt args = outcome := by
  constructor
  · intro h
    have hanswer := h (fun _ _ => Interp.tooDeep) ⟨0, []⟩ (fun _ => .input)
      Machine.withBuiltins.1
    rw [applyBuiltin_eq] at hanswer
    exact (Prod.mk.inj (Option.some.inj hanswer)).1
  · intro h evaluate scope host m
    rw [applyBuiltin_eq, h]

/-- A fold of an operation succeeds if every step does, and otherwise divides by zero. -/
theorem foldAll_attempt (op : Operation) (a : Decimal) (ns : List Decimal) :
    Primitive.foldAll op.attempt a ns
      = match ns.foldlM op.step a with
        | some r => .ok r
        | none => .error .divisionByZero := by
  induction ns generalizing a with
  | nil => rfl
  | cons n ns ih =>
    rw [Primitive.foldAll, List.foldlM_cons, attempt]
    cases op.step a n with
    | none => rfl
    | some c => exact ih c

/-- What a builtin of arithmetic answers to numbers. -/
theorem arithmetic_numbers (op : Operation) (n : Decimal) (ns : List Decimal) :
    Primitive.arithmetic op.builtin op.start op.attempt ((n :: ns).map .number)
      = match (op.operands n ns).2.foldlM op.step (op.operands n ns).1 with
        | some r => .ok (.number r)
        | none => .error .divisionByZero := by
  have hall := Primitive.forAll_expectNumber op.builtin (n :: ns)
  have hfold : ∀ a ds, (Primitive.foldAll op.attempt a ds >>= fun r => pure (Value.number r))
      = match ds.foldlM op.step a with
        | some r => .ok (.number r)
        | none => .error .divisionByZero := by
    intro a ds
    rw [foldAll_attempt]
    cases ds.foldlM op.step a <;> rfl
  unfold Primitive.arithmetic
  rw [hall]
  unfold operands
  cases ns with
  | nil =>
    cases op.start with
    | none => exact hfold n []
    | some a =>
      -- a single step is a fold of one number
      refine Eq.trans ?_ (hfold a [n])
      show (op.attempt a n >>= fun r => pure (Value.number r)) = _
      rw [Primitive.foldAll]
      cases op.attempt a n <;> rfl
  | cons n' ns => cases op.start <;> exact hfold n (n' :: ns)

/-! ## Steps -/

/-- Only a quotient may fail to exist. -/
theorem exists_step (hop : op ≠ divide) (a b : Decimal) : ∃ c, op.step a b = some c := by
  cases op with
  | divide => exact absurd rfl hop
  | _ => exact ⟨_, rfl⟩

/-- A step of an operation other than the division is exact. -/
theorem value_of_step (hop : op ≠ divide) {a b c : Decimal} (h : op.step a b = some c) :
    c.value = op.exact a.value b.value := by
  cases op with
  | add => exact Option.some.inj h ▸ Decimal.value_add a b
  | subtract => exact Option.some.inj h ▸ Decimal.value_sub a b
  | multiply => exact Option.some.inj h ▸ Decimal.value_mul a b
  | divide => exact absurd rfl hop

/-- Only a division by a number of value zero has no result. -/
theorem step_eq_none_iff {a b : Decimal} : op.step a b = none ↔ op = divide ∧ b.value = 0 := by
  cases op with
  | divide =>
    rw [← Decimal.isZero_iff_value_eq_zero, Decimal.isZero, beq_iff_eq, eq_self_iff_true, true_and]
    exact Decimal.divide?_eq_none_iff a b
  | _ => simp [step]

/-! ## Folds -/

/-- A fold has no result exactly if it divides by a number of value zero. -/
theorem foldlM_step_eq_none_iff {a : Decimal} {ns : List Decimal} :
    ns.foldlM op.step a = none ↔ op = divide ∧ ∃ d ∈ ns, d.value = 0 := by
  induction ns generalizing a with
  | nil => simp
  | cons n ns ih =>
    rw [List.foldlM_cons, List.exists_mem_cons_iff]
    cases hstep : op.step a n with
    | none =>
      obtain ⟨hop, hzero⟩ := step_eq_none_iff.1 hstep
      exact ⟨fun _ => ⟨hop, .inl hzero⟩, fun _ => rfl⟩
    | some c =>
      have hsome : ¬ (op = divide ∧ n.value = 0) := by
        rw [← @step_eq_none_iff op a n, hstep]
        exact Option.some_ne_none c
      refine (ih (a := c)).trans ⟨fun h => ⟨h.1, .inr h.2⟩, fun h => ⟨h.1, h.2.resolve_left ?_⟩⟩
      exact fun hzero => hsome ⟨h.1, hzero⟩

/-- A fold of exact steps is exact. -/
theorem value_of_foldlM (hop : op ≠ divide) {a r : Decimal} {ns : List Decimal}
    (h : ns.foldlM op.step a = some r) :
    r.value = (ns.map Decimal.value).foldl op.exact a.value := by
  induction ns generalizing a with
  | nil => rw [← Option.some.inj h, List.map_nil, List.foldl_nil]
  | cons n ns ih =>
    obtain ⟨c, hc⟩ := exists_step hop a n
    rw [List.foldlM_cons, hc] at h
    rw [List.map_cons, List.foldl_cons, ← value_of_step hop hc]
    exact ih h

/-- Applied to numbers, an operation answers the left fold of its steps. -/
theorem answers_numbers_iff {n r : Decimal} {ns : List Decimal} :
    op.Answers ((n :: ns).map .number) (.ok (.number r))
      ↔ (op.operands n ns).2.foldlM op.step (op.operands n ns).1 = some r := by
  rw [answers_iff, arithmetic_numbers]
  cases (op.operands n ns).2.foldlM op.step (op.operands n ns).1 <;> simp

/-- An operation other than a division has a result for all numbers, of the exact value. -/
theorem exists_answer (hop : op ≠ divide) (n : Decimal) (ns : List Decimal) :
    ∃ r : Decimal, op.Answers ((n :: ns).map .number) (.ok (.number r))
      ∧ r.value = ((op.operands n ns).2.map Decimal.value).foldl op.exact
          (op.operands n ns).1.value := by
  cases hfold : (op.operands n ns).2.foldlM op.step (op.operands n ns).1 with
  | none => exact absurd (foldlM_step_eq_none_iff.1 hfold).1 hop
  | some r => exact ⟨r, answers_numbers_iff.2 hfold, value_of_foldlM hop hfold⟩

/-- The arguments for which an operation fails, and its errors. -/
theorem answers_error_iff {args : List Value} {e : EvalError} :
    op.Answers args (.error e) ↔ op.Refuses args e := by
  rw [answers_iff]
  constructor
  · intro h
    rcases Primitive.numbers_or_first args with ⟨ns, rfl⟩ | ⟨ns, v, after, rfl, hv⟩
    · cases ns with
      | nil =>
        cases op <;> cases h <;> exact .noArguments
      | cons n ns =>
        rw [arithmetic_numbers] at h
        split at h
        · cases h
        · next hfold =>
          cases h
          obtain ⟨hop, hzero⟩ := foldlM_step_eq_none_iff.1 hfold
          exact .zeroDivisor hop hzero
    · have hfirst := Primitive.forAll_of_first_fault _ .number (fun _ => rfl) ns
        (Primitive.expectNumber_of_ne op.builtin hv) after
      unfold Primitive.arithmetic at h
      rw [hfirst] at h
      cases op <;> cases h <;> exact .notNumber ns hv after
  · rintro (_ | ⟨ns, hv, after⟩ | ⟨hop, hzero⟩)
    · cases op <;> rfl
    · have hfirst := Primitive.forAll_of_first_fault _ .number (fun _ => rfl) ns
        (Primitive.expectNumber_of_ne op.builtin hv) after
      unfold Primitive.arithmetic
      rw [hfirst]
      cases op <;> rfl
    · rw [arithmetic_numbers, foldlM_step_eq_none_iff.2 ⟨hop, hzero⟩]

/-! ## Order of the arguments -/

/-- Sums and products of rational numbers are the same in every order. -/
theorem foldl_exact_of_perm (hop : op = add ∨ op = multiply) {x y : ℚ} {xs ys : List ℚ}
    (h : (x :: xs).Perm (y :: ys)) : xs.foldl op.exact x = ys.foldl op.exact y := by
  obtain ⟨unit, hunit⟩ : ∃ unit, ∀ x, op.exact unit x = x := by
    rcases hop with rfl | rfl
    · exact ⟨0, zero_add⟩
    · exact ⟨1, one_mul⟩
  have hcomm : RightCommutative op.exact := by
    rcases hop with rfl | rfl
    · exact ⟨add_right_comm⟩
    · exact ⟨mul_right_comm⟩
  have hfold := h.foldl_eq (f := op.exact) unit
  rwa [List.foldl_cons, List.foldl_cons, hunit, hunit] at hfold

/-- An operation without a start folds the numbers as they are. -/
theorem operands_of_start_eq_none (h : op.start = none) (n : Decimal) (ns : List Decimal) :
    op.operands n ns = (n, ns) := by
  unfold operands
  rw [h]

/-- A permutation of numbers is a permutation of arguments. -/
theorem exists_numbers_of_perm {ns : List Decimal} {args : List Value}
    (h : args.Perm (ns.map .number)) : ∃ ks : List Decimal, args = ks.map .number ∧ ks.Perm ns := by
  rcases Primitive.numbers_or_first args with ⟨ks, rfl⟩ | ⟨ks, v, after, rfl, hv⟩
  · exact ⟨ks, rfl, (List.map_perm_map_iff fun a b hab => Value.number.inj hab).1 h⟩
  · have hmem : v ∈ ns.map Value.number := h.subset (by simp)
    obtain ⟨n, -, rfl⟩ := List.mem_map.1 hmem
    exact absurd rfl (hv n)

/-- The arguments of an operation that has a result. -/
theorem exists_numbers {args : List Value} (h : ∀ e, ¬ op.Refuses args e) :
    ∃ n ns, args = (n :: ns).map .number := by
  rcases Primitive.numbers_or_first args with ⟨ns, rfl⟩ | ⟨ns, v, after, rfl, hv⟩
  · cases ns with
    | nil => exact absurd .noArguments (h _)
    | cons n ns => exact ⟨n, ns, rfl⟩
  · exact absurd (.notNumber ns hv after) (h _)

/-- Arguments with a result are not refused. -/
theorem not_refuses_of_answers {args : List Value} {v : Value} (h : op.Answers args (.ok v))
    (e : EvalError) : ¬ op.Refuses args e := by
  intro hrefuses
  rw [answers_iff] at h
  cases h.symm.trans (answers_iff.1 (answers_error_iff.2 hrefuses))

/-- In another order, the summands or factors have a result with the same value. -/
theorem exists_answer_of_perm (hop : op = add ∨ op = multiply) {args args' : List Value}
    {r : Decimal} (hperm : args'.Perm args) (h : op.Answers args (.ok (.number r))) :
    ∃ r' : Decimal, op.Answers args' (.ok (.number r')) ∧ r'.value = r.value := by
  have hdivide : op ≠ divide := by rcases hop with rfl | rfl <;> exact nofun
  have hstart : op.start = none := by rcases hop with rfl | rfl <;> rfl
  obtain ⟨n, ns, rfl⟩ := exists_numbers (not_refuses_of_answers h)
  obtain ⟨ks, rfl, hks⟩ := exists_numbers_of_perm hperm
  cases ks with
  | nil => cases hks.length_eq
  | cons k ks =>
    obtain ⟨r', hanswers, hvalue⟩ := exists_answer hdivide k ks
    rw [operands_of_start_eq_none hstart] at hvalue
    rw [answers_numbers_iff, operands_of_start_eq_none hstart] at h
    refine ⟨r', hanswers, ?_⟩
    rw [hvalue, value_of_foldlM hdivide h]
    exact foldl_exact_of_perm hop (hks.map Decimal.value)

/-! ## Code -/

/-- Code that applies an operation to two values. -/
def code (op : Operation) (v w : Value) : Value :=
  .sexpr [.symbol op.builtin.name, v, w]

/-- Code that applies an operation returns what the operation answers. -/
theorem Answers.returns {scope : Scope} {host : Host} {m : Machine} {v w x y r : Value}
    (hname : m.store.get? scope op.builtin.name = some (.builtin op.builtin))
    (hv : m.Returns host scope v x m) (hw : m.Returns host scope w y m)
    (h : op.Answers [x, y] (.ok r)) : m.Returns host scope (op.code v w) r m := by
  have hitems := Machine.ReturnsAll.cons (.symbol hname) (.cons hv (.cons hw .nil))
  exact hitems.returns fun depth => h (Eval.evaluate depth) scope host m

/-- To add a number and to take it away again gives a number of the first value. -/
theorem exists_add_subtract (a b : Decimal) :
    ∃ s r : Decimal, add.Answers [.number a, .number b] (.ok (.number s))
      ∧ subtract.Answers [.number s, .number b] (.ok (.number r)) ∧ r.value = a.value := by
  have hadd : add ≠ divide := nofun
  have hsubtract : subtract ≠ divide := nofun
  obtain ⟨s, hs, hvalue⟩ := exists_answer hadd a [b]
  obtain ⟨r, hr, hvalue'⟩ := exists_answer hsubtract s [b]
  refine ⟨s, r, hs, hr, ?_⟩
  have hsum : s.value = a.value + b.value := hvalue
  have hdifference : r.value = s.value - b.value := hvalue'
  rw [hdifference, hsum, add_sub_cancel_right]

end Operation

end QLisp
