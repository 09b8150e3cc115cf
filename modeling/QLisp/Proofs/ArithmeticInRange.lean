import QLisp.Proofs.ScaleRange

/-!
# Arithmetic within the range of scales

Quotients and folds of arithmetic as they are carried out. A step is exact or breaks off: a product
whose scale cannot be kept, and a quotient for which a scale on the way cannot be kept, have no
result. `Decimal.divideInRange_eq` and `Operation.foldlM_stepInRange` compare this with the exact
steps and folds, so that what is known about those carries over to every result.

`Decimal.quotient_rounds_half_up` says which quotients there are and what they are.
`Operation.folds_exactly` says the same of the arithmetic builtins as the interpreter applies them.
In both statements the steps that break off are the ones with a scale out of the range, and no
others.
-/

set_option autoImplicit false

namespace QLisp

/-! ## Quotients -/

namespace Decimal

/-- What comes after a scale that has been computed comes only if the scale can be kept. -/
theorem keep_bind {α : Type} (s : ℤ) (f : ℤ → Except Fault α) :
    (keep s >>= f) = if fitsScale s then f s else .error .outOfRange := by
  unfold keep
  split <;> rfl

/-- A quotient that is carried out is the exact one, unless a scale on the way cannot be kept. -/
theorem divideInRange_eq (a b : Decimal) :
    divideInRange a b =
      match divide? a b with
      | none => .error .zeroDivisor
      | some q => if quotientFits a b then .ok q else .error .outOfRange := by
  unfold divideInRange divide?
  cases hb : b.isZero with
  | true => rfl
  | false =>
    unfold quotientFits quotient
    rw [preferredScale_eq_max]
    generalize roundedQuotient a.digits.natAbs b.digits.natAbs = rounded
    simp only [keep_bind]
    cases fitsScale (a.scale - b.scale) with
    | false => cases a.isZero <;> rfl
    | true =>
      cases a.isZero with
      | true => rfl
      | false =>
        by_cases hraised : fitsScale (rounded.2 + a.scale) = true
        · simp [hraised, pure, Except.pure]
        · simp [hraised]

variable {a b q : Decimal}

/-- The result of a quotient that is carried out is the exact one, and its scales fit. -/
theorem divideInRange_eq_ok_iff :
    divideInRange a b = .ok q ↔ divide? a b = some q ∧ quotientFits a b = true := by
  rw [divideInRange_eq]
  cases divide? a b with
  | none => simp
  | some q' => cases quotientFits a b <;> simp

/-- Only a zero divisor has no quotient of whatever scale. -/
theorem divideInRange_eq_zeroDivisor_iff :
    divideInRange a b = .error .zeroDivisor ↔ b.digits = 0 := by
  rw [← divide?_eq_none_iff a b, divideInRange_eq]
  cases divide? a b with
  | none => simp
  | some q => cases quotientFits a b <;> simp

/-- A quotient breaks off for a scale that cannot be kept: the difference of the scales, or the
scale at which the exact quotient is rounded, also before that of the divisor is taken away. -/
theorem divideInRange_eq_outOfRange_iff :
    divideInRange a b = .error .outOfRange ↔ b.digits ≠ 0 ∧
      (fitsScale (a.scale - b.scale) = false ∨
        ∃ e, HasPrecision quotientPrecision |a.value / b.value| e ∧
          (fitsScale e = false ∨ fitsScale (e + b.scale) = false)) := by
  have hvalue : b.value ≠ 0 ↔ b.digits ≠ 0 := by
    rw [ne_eq, ← isZero_iff_value_eq_zero, isZero, beq_iff_eq]
  have hfits : divideInRange a b = .error .outOfRange
      ↔ divide? a b ≠ none ∧ quotientFits a b = false := by
    rw [divideInRange_eq]
    cases divide? a b with
    | none => simp
    | some q => cases quotientFits a b <;> simp
  rw [hfits, ne_eq, divide?_eq_none_iff]
  exact and_congr_right fun hb => quotientFits_eq_false_iff (hvalue.2 hb)

/-- A division is refused for a zero divisor only, and it breaks off exactly if one of the scales
that it computes leaves the range. Every result is as follows. A zero dividend gives a zero of the
preferred scale. Every other quotient has the value of the exact quotient, rounded with a half away
from zero at the one scale that gives it 34 digits before the point. If that scale is larger than
the preferred one, the quotient is written with as few fraction digits as its value allows, though
not with fewer than preferred; otherwise it keeps that scale. No quotient has a negative scale or
one that cannot be kept. -/
theorem quotient_rounds_half_up (a b : Decimal) :
    (divideInRange a b = .error .zeroDivisor ↔ b.digits = 0) ∧
    (divideInRange a b = .error .outOfRange ↔ b.digits ≠ 0 ∧
      (fitsScale (a.scale - b.scale) = false ∨
        ∃ e, HasPrecision 34 |a.value / b.value| e ∧
          (fitsScale e = false ∨ fitsScale (e + b.scale) = false))) ∧
    (a.digits = 0 → ∀ q, divideInRange a b = .ok q → q = ⟨0, max (a.scale - b.scale) 0⟩) ∧
    (b.digits ≠ 0 → a.digits ≠ 0 →
      (∃! e, HasPrecision 34 |a.value / b.value| e) ∧
      ∀ e q, HasPrecision 34 |a.value / b.value| e → divideInRange a b = .ok q →
        q.value = (SignType.sign (a.value / b.value) : ℚ)
          * ⌊|a.value / b.value| * (10 : ℚ) ^ e + 1 / 2⌋ * (10 : ℚ) ^ (-e) ∧
        if max (a.scale - b.scale) 0 < e then
          IsLeast {s : ℤ | max (a.scale - b.scale) 0 ≤ s ∧ ∃ n : ℤ, q.value * (10 : ℚ) ^ s = n}
            q.scale
        else q.scale = max e 0) ∧
    ∀ q, divideInRange a b = .ok q → 0 ≤ q.scale ∧ q.Kept := by
  refine ⟨divideInRange_eq_zeroDivisor_iff, divideInRange_eq_outOfRange_iff, ?_, ?_, ?_⟩
  · intro ha q hq
    obtain ⟨hquotient, -⟩ := divideInRange_eq_ok_iff.1 hq
    have hb : b.digits ≠ 0 := by
      rw [ne_eq, ← divide?_eq_none_iff a b, hquotient]
      exact Option.some_ne_none q
    rw [divide?_of_zero hb ha] at hquotient
    exact (Option.some.inj hquotient).symm
  · intro hb ha
    obtain ⟨n, e, hprecision, -, -⟩ := exists_rounded ha hb
    refine ⟨⟨e, hprecision, fun e' he' => hprecision.unique he'⟩, fun e' q he' hq => ?_⟩
    obtain ⟨q', hquotient, hvalue, hscale⟩ := exists_quotient ha hb he'
    obtain ⟨hquotient', -⟩ := divideInRange_eq_ok_iff.1 hq
    obtain rfl := Option.some.inj (hquotient.symm.trans hquotient')
    exact ⟨hvalue, hscale⟩
  · intro q hq
    obtain ⟨hquotient, hfits⟩ := divideInRange_eq_ok_iff.1 hq
    exact ⟨scale_nonneg_of_divide? hquotient, kept_of_divide? hfits hquotient⟩

/-- A quotient of 35 nines and a negative divisor, where the rounding carries to a power of ten. -/
theorem quotient_rounds_half_up_carry :
    HasPrecision 34 |value ⟨99999999999999999999999999999999999, 0⟩ / value ⟨-1, 0⟩| (-1) ∧
    ∃ q, divideInRange ⟨99999999999999999999999999999999999, 0⟩ ⟨-1, 0⟩ = .ok q ∧
      q.value = -(10 : ℚ) ^ 35 ∧ q.scale = 0 := by
  have hprecision :
      HasPrecision 34 |value ⟨99999999999999999999999999999999999, 0⟩ / value ⟨-1, 0⟩| (-1) := by
    norm_num [HasPrecision, value]
  obtain ⟨q, hq⟩ :
      ∃ q, divideInRange ⟨99999999999999999999999999999999999, 0⟩ ⟨-1, 0⟩ = .ok q :=
    ⟨⟨-100000000000000000000000000000000000, 0⟩, by decide +kernel⟩
  obtain ⟨-, -, -, hrounds, -⟩ :=
    quotient_rounds_half_up ⟨99999999999999999999999999999999999, 0⟩ ⟨-1, 0⟩
  obtain ⟨-, hrounds⟩ := hrounds (by decide) (by decide)
  obtain ⟨hvalue, hscale⟩ := hrounds (-1) q hprecision hq
  refine ⟨hprecision, q, hq, ?_, ?_⟩
  · rw [hvalue]
    norm_num [value, sign_apply]
  · simpa using hscale

/-- A zero with the least scale that can be kept, divided by a tenth, breaks off, although the zero
of the preferred scale could be kept. -/
theorem quotient_leaves_range :
    Kept ⟨0, -9223372036854775808⟩ ∧ Kept ⟨1, 1⟩ ∧
    divideInRange ⟨0, -9223372036854775808⟩ ⟨1, 1⟩ = .error .outOfRange ∧
    Kept ⟨0, max (-9223372036854775808 - 1) 0⟩ := by
  decide

end Decimal

/-! ## Folds -/

namespace Operation

variable {op : Operation}

/-- One step of an operation as it is carried out. -/
def stepInRange : Operation → Decimal → Decimal → Except Decimal.Fault Decimal
  | add, a, b => .ok (a.add b)
  | subtract, a, b => .ok (a.sub b)
  | multiply, a, b => a.multiplyInRange b
  | divide, a, b => a.divideInRange b

/-- A step that is carried out is the exact one, unless it overflows. -/
theorem stepInRange_eq (op : Operation) (a b : Decimal) :
    op.stepInRange a b =
      match op.step a b with
      | none => .error .zeroDivisor
      | some c => if op.fits a b then .ok c else .error .outOfRange := by
  cases op with
  | divide => exact Decimal.divideInRange_eq a b
  | multiply =>
    show a.multiplyInRange b = if a.productFits b then .ok (a.mul b) else .error .outOfRange
    unfold Decimal.multiplyInRange Decimal.keep Decimal.productFits
    split <;> rfl
  | _ => rfl

/-- A fold that is carried out is the exact one up to the first step that overflows. -/
theorem foldlM_stepInRange (op : Operation) (a : Decimal) (ns : List Decimal) :
    ns.foldlM op.stepInRange a =
      if Primitive.foldFits op.fits op.step a ns then
        match ns.foldlM op.step a with
        | none => .error .zeroDivisor
        | some r => .ok r
      else .error .outOfRange := by
  induction ns generalizing a with
  | nil => rfl
  | cons n ns ih =>
    rw [List.foldlM_cons, List.foldlM_cons, Primitive.foldFits, stepInRange_eq]
    cases op.step a n with
    | none => rfl
    | some c =>
      cases op.fits a n with
      | false => rfl
      | true => exact ih c

/-- The arguments for which an operation breaks off: numbers in whose fold a step overflows. -/
def BreaksOff (op : Operation) (args : List Value) : Prop :=
  ∃ n ns acc d, args = (n :: ns).map .number
    ∧ op.Makes (op.operands n ns).1 (op.operands n ns).2 acc d ∧ op.Overflows acc d

/-- The interpreter, applying the builtin of the operation to the arguments in whatever scope, gives
this answer and has no effect; there may be none. -/
def AnswersInRange (op : Operation) (args : List Value)
    (answer : Option (Except EvalError Value)) : Prop :=
  ∀ (evaluate : Evaluator) (scope : Scope) (host : Host) (m : Machine),
    Eval.applyBounded evaluate scope args (.builtin op.builtin) host m
      = answer.map fun outcome => (outcome, m)

/-- A builtin does not keep its scales exactly if the operation breaks off. -/
theorem scalesFit_eq_false_iff {args : List Value} :
    Primitive.scalesFit args op.builtin = false ↔ op.BreaksOff args := by
  constructor
  · intro h
    obtain ⟨n, ns, rfl⟩ : ∃ n ns, args = (n :: ns).map .number := by
      cases op with
      | add | subtract => cases h
      | multiply | divide => exact Primitive.exists_numbers_of_argumentsFit h
    rw [scalesFit_numbers, foldFits_eq_false_iff] at h
    obtain ⟨acc, d, hmakes, h⟩ := h
    exact ⟨n, ns, acc, d, rfl, hmakes, h⟩
  · rintro ⟨n, ns, acc, d, rfl, hmakes, h⟩
    rw [scalesFit_numbers, foldFits_eq_false_iff]
    exact ⟨acc, d, hmakes, h⟩

/-- A product of two numbers breaks off exactly if it is not kept. -/
theorem breaksOff_product_iff {a b : Decimal} :
    multiply.BreaksOff ([a, b].map .number) ↔ ¬ (a.mul b).Kept := by
  rw [← scalesFit_eq_false_iff, scalesFit_numbers, foldFits_eq_false_iff]
  constructor
  · rintro ⟨acc, d, hmakes, ⟨h⟩⟩
    rcases makes_cons_iff.1 hmakes with ⟨rfl, rfl⟩ | ⟨c, -, hnil⟩
    · exact h
    · exact absurd hnil not_makes_nil
  · exact fun h => ⟨a, b, makes_cons_iff.2 (.inl ⟨rfl, rfl⟩), .product h⟩

/-- Sums and differences never break off. -/
theorem not_breaksOff (hop : op = add ∨ op = subtract) (args : List Value) :
    ¬ op.BreaksOff args := by
  rw [← scalesFit_eq_false_iff]
  rcases hop with rfl | rfl <;> simp [Primitive.scalesFit, builtin]

/-- The answer of the interpreter is the exact one, unless the operation breaks off. -/
theorem applyBounded_eq (op : Operation) (args : List Value) (evaluate : Evaluator) (scope : Scope)
    (host : Host) (m : Machine) :
    Eval.applyBounded evaluate scope args (.builtin op.builtin) host m
      = if Primitive.scalesFit args op.builtin then
          some (Primitive.arithmetic op.builtin op.start op.attempt args, m)
        else none := by
  have happly := op.applyBuiltin_eq args evaluate scope host m
  show Interp.guarded (fun _ => Primitive.scalesFit args op.builtin) _ host m = _
  unfold Interp.guarded
  split
  · exact happly
  · rfl

/-- The answer within the range is that of exact arithmetic, if all scales can be kept. -/
theorem answersInRange_iff {args : List Value} {answer : Option (Except EvalError Value)} :
    op.AnswersInRange args answer ↔
      (if Primitive.scalesFit args op.builtin then
        some (Primitive.arithmetic op.builtin op.start op.attempt args) else none) = answer := by
  have hinjective : Function.Injective
      (Option.map fun outcome =>
        ((outcome, Machine.withBuiltins.1) : Except EvalError Value × Machine)) :=
    Option.map_injective fun _ _ h => (Prod.mk.inj h).1
  constructor
  · intro h
    have hanswer := h (fun _ _ => Interp.tooDeep) ⟨0, []⟩ (fun _ => .input) Machine.withBuiltins.1
    rw [applyBounded_eq] at hanswer
    apply hinjective
    rw [← hanswer]
    split <;> rfl
  · rintro rfl evaluate scope host m
    rw [applyBounded_eq]
    split <;> rfl

/-- There is no answer within the range exactly if the operation breaks off. -/
theorem answersInRange_none_iff {args : List Value} :
    op.AnswersInRange args none ↔ op.BreaksOff args := by
  rw [answersInRange_iff, ← scalesFit_eq_false_iff]
  cases Primitive.scalesFit args op.builtin <;> simp

/-- An outcome within the range is that of exact arithmetic. -/
theorem answersInRange_some_iff {args : List Value} {outcome : Except EvalError Value} :
    op.AnswersInRange args (some outcome) ↔ op.Answers args outcome ∧ ¬ op.BreaksOff args := by
  rw [answersInRange_iff, answers_iff, ← scalesFit_eq_false_iff]
  cases Primitive.scalesFit args op.builtin <;> simp

/-- The fold of a builtin whose scales are kept. -/
theorem foldlM_stepInRange_eq_ok {n r : Decimal} {ns : List Decimal}
    (hfits : ¬ op.BreaksOff ((n :: ns).map .number))
    (h : (op.operands n ns).2.foldlM op.step (op.operands n ns).1 = some r) :
    (op.operands n ns).2.foldlM op.stepInRange (op.operands n ns).1 = .ok r := by
  rw [← scalesFit_eq_false_iff, scalesFit_numbers, Bool.not_eq_false] at hfits
  rw [foldlM_stepInRange, if_pos hfits, h]

/-! ## Code -/

end Operation

namespace Eval

variable {scope : Scope} {host : Host} {m m' : Machine} {depth : Nat}

/-- Within the range of scales, a symbol has the value that it is bound to. -/
theorem bounded_symbol {name : String} {v : Value} (h : m.store.get? scope name = some v) :
    bounded (depth + 1) scope (.symbol name) host m = some (.ok v, m) := by
  show lookup scope name host m = _
  unfold lookup
  rw [Interp.bind_apply, Interp.inspectStore]
  dsimp only
  rw [h]
  rfl

/-- A call applies the value of its first item to those of the others. -/
theorem bounded_call {items args : List Value} {function a : Value}
    (h : evaluateItems (bounded depth) scope items host m
      = some (.ok (function :: a :: args), m')) :
    bounded (depth + 1) scope (.sexpr items) host m
      = applyBounded (bounded depth) scope (a :: args) function host m' := by
  show evaluateCall (applySupervised Event.fits (bounded depth)) (bounded depth) scope items host m
    = _
  rw [evaluateCall, Interp.bind_apply, h]
  rfl

/-- A call has no answer if its items have none. -/
theorem bounded_call_eq_none {items : List Value}
    (h : evaluateItems (bounded depth) scope items host m = none) :
    bounded (depth + 1) scope (.sexpr items) host m = none := by
  show evaluateCall (applySupervised Event.fits (bounded depth)) (bounded depth) scope items host m
    = _
  rw [evaluateCall, Interp.bind_apply, h]

end Eval

namespace Operation

variable {op : Operation} {scope : Scope} {host : Host} {m : Machine} {v w x y : Value}

/-- What code that applies an operation to two values evaluates to, if to anything. -/
theorem AnswersInRange.bounded_code {depth : Nat} {answer : Option (Except EvalError Value)}
    (hname : m.store.get? scope op.builtin.name = some (.builtin op.builtin))
    (hv : Eval.bounded (depth + 1) scope v host m = some (.ok x, m))
    (hw : Eval.bounded (depth + 1) scope w host m = some (.ok y, m))
    (h : op.AnswersInRange [x, y] answer) :
    Eval.bounded (depth + 2) scope (op.code v w) host m
      = answer.map fun outcome => (outcome, m) := by
  have hitems : Eval.evaluateItems (Eval.bounded (depth + 1)) scope
      [.symbol op.builtin.name, v, w] host m = some (.ok [.builtin op.builtin, x, y], m) := by
    simp [Eval.evaluateItems, Interp.bind_apply, Eval.bounded_symbol hname, hv, hw]
  exact (Eval.bounded_call hitems).trans (h (Eval.bounded (depth + 1)) scope host m)

/-- To add a number and to take it away again, within the range of scales. -/
theorem exists_bounded_add_subtract (a b : Decimal) :
    ∃ r : Decimal, r.value = a.value ∧
      ∀ (host : Host) (scope : Scope) (m : Machine) (depth : Nat),
        m.store.get? scope "+" = some (.builtin .add) →
        m.store.get? scope "-" = some (.builtin .subtract) →
        Eval.bounded (depth + 3) scope
          (subtract.code (add.code (.number a) (.number b)) (.number b)) host m
            = some (.ok (.number r), m) := by
  obtain ⟨s, r, hsum, hdifference, hvalue⟩ := exists_add_subtract a b
  refine ⟨r, hvalue, fun host scope m depth hadd hsubtract => ?_⟩
  have hsum : add.AnswersInRange [.number a, .number b] (some (.ok (.number s))) :=
    answersInRange_some_iff.2 ⟨hsum, not_breaksOff (.inl rfl) _⟩
  have hdifference : subtract.AnswersInRange [.number s, .number b] (some (.ok (.number r))) :=
    answersInRange_some_iff.2 ⟨hdifference, not_breaksOff (.inr rfl) _⟩
  have hinner : Eval.bounded (depth + 2) scope (add.code (.number a) (.number b)) host m
      = some (.ok (.number s), m) := hsum.bounded_code hadd rfl rfl
  exact hdifference.bounded_code hsubtract hinner rfl

/-- What the interpreter does when it applies arithmetic to any arguments, in any scope and without
effects. An operation breaks off exactly for numbers in whose fold a step overflows, which sums and
differences never do. Otherwise it fails exactly for the arguments that it refuses, each of them
with its error, and all other arguments are one number or more. Then the result is the fold of the
steps as they are carried out, and for `+`, `-` and `*` it has exactly the value of the fold of
rational numbers. Sums and products have the same value in every order of the arguments, except for
an order in which the product breaks off. Where the names `+` and `-` have their meaning, `(- (+ a
b) b)` has the value of `a`. -/
theorem folds_exactly (op : Operation) (args : List Value) :
    (op.AnswersInRange args none ↔ op.BreaksOff args)
    ∧ (op = add ∨ op = subtract → ¬ op.BreaksOff args)
    ∧ (∀ e, op.AnswersInRange args (some (.error e)) ↔ op.Refuses args e ∧ ¬ op.BreaksOff args)
    ∧ ((∀ e, ¬ op.Refuses args e) → ¬ op.BreaksOff args →
      ∃ (n : Decimal) (ns : List Decimal) (r : Decimal), args = (n :: ns).map .number
        ∧ op.AnswersInRange args (some (.ok (.number r)))
        ∧ (op.operands n ns).2.foldlM op.stepInRange (op.operands n ns).1 = .ok r
        ∧ (op ≠ divide → r.value = ((op.operands n ns).2.map Decimal.value).foldl op.exact
            (op.operands n ns).1.value))
    ∧ (op = add ∨ op = multiply → ∀ (args' : List Value) (r : Decimal), args'.Perm args →
        op.AnswersInRange args (some (.ok (.number r))) → ¬ op.BreaksOff args' →
        ∃ r' : Decimal, op.AnswersInRange args' (some (.ok (.number r'))) ∧ r'.value = r.value)
    ∧ ∀ a b : Decimal, ∃ r : Decimal, r.value = a.value
      ∧ ∀ (host : Host) (scope : Scope) (m : Machine) (depth : Nat),
        m.store.get? scope "+" = some (.builtin .add) →
        m.store.get? scope "-" = some (.builtin .subtract) →
        Eval.bounded (depth + 3) scope
          (subtract.code (add.code (.number a) (.number b)) (.number b)) host m
            = some (.ok (.number r), m) := by
  refine ⟨answersInRange_none_iff, fun hop => not_breaksOff hop args, fun e => ?_,
    fun hargs hfits => ?_, fun hop args' r hperm h hfits => ?_, exists_bounded_add_subtract⟩
  · rw [answersInRange_some_iff, answers_error_iff]
  · obtain ⟨n, ns, rfl⟩ := exists_numbers hargs
    cases hfold : (op.operands n ns).2.foldlM op.step (op.operands n ns).1 with
    | none =>
      obtain ⟨hop, hzero⟩ := foldlM_step_eq_none_iff.1 hfold
      exact absurd (.zeroDivisor hop hzero) (hargs _)
    | some r =>
      exact ⟨n, ns, r, rfl, answersInRange_some_iff.2 ⟨answers_numbers_iff.2 hfold, hfits⟩,
        foldlM_stepInRange_eq_ok hfits hfold, fun hop => value_of_foldlM hop hfold⟩
  · obtain ⟨hanswers, -⟩ := answersInRange_some_iff.1 h
    obtain ⟨r', hanswers', hvalue⟩ := exists_answer_of_perm hop hperm hanswers
    exact ⟨r', answersInRange_some_iff.2 ⟨hanswers', hfits⟩, hvalue⟩

/-- An argument that is no number counts before a divisor zero; a factor one and other scales do not
disturb the value. -/
theorem folds_exactly_scales :
    divide.AnswersInRange [.number ⟨1, 0⟩, .number ⟨0, 1⟩, .symbol "x"]
        (some (.error (.type (.notNumber .divide ⟨.symbol, "x"⟩))))
    ∧ (∃ r r' : Decimal, r.value = 50 ∧ r'.value = r.value
      ∧ multiply.AnswersInRange [.number ⟨10, 1⟩, .number ⟨250, 2⟩, .number ⟨20, 0⟩]
        (some (.ok (.number r)))
      ∧ multiply.AnswersInRange [.number ⟨20, 0⟩, .number ⟨10, 1⟩, .number ⟨250, 2⟩]
        (some (.ok (.number r'))))
    ∧ ∃ r : Decimal, r.value = 1 / 4 ∧ Interpreter.evaluate ⟨0, []⟩
      (subtract.code (add.code (.number ⟨25, 2⟩) (.number ⟨0, 3⟩)) (.number ⟨0, 3⟩))
      (fun _ => .input) Machine.withBuiltins.1
        = some (.ok (.number r), Machine.withBuiltins.1) := by
  have hfits : ∀ (op : Operation) (args : List Value),
      Primitive.scalesFit args op.builtin = true → ¬ op.BreaksOff args := by
    intro op args h
    rw [← scalesFit_eq_false_iff, h]
    exact nofun
  refine ⟨?_, ?_, ?_⟩
  · obtain ⟨-, -, herror, -⟩ := folds_exactly divide [.number ⟨1, 0⟩, .number ⟨0, 1⟩, .symbol "x"]
    exact (herror _).2 ⟨.notNumber [⟨1, 0⟩, ⟨0, 1⟩] (by nofun) [], hfits _ _ rfl⟩
  · have hmultiply : multiply ≠ divide := nofun
    have hnone : ∀ e, ¬ multiply.Refuses ([⟨10, 1⟩, ⟨250, 2⟩, ⟨20, 0⟩].map .number) e := by
      obtain ⟨r, hr, -⟩ := exists_answer hmultiply ⟨10, 1⟩ [⟨250, 2⟩, ⟨20, 0⟩]
      exact not_refuses_of_answers hr
    have hmoved : ([⟨20, 0⟩, ⟨10, 1⟩, ⟨250, 2⟩] : List Decimal).Perm
        [⟨10, 1⟩, ⟨250, 2⟩, ⟨20, 0⟩] := by decide
    obtain ⟨-, -, -, hresult, hperm, -⟩ :=
      folds_exactly multiply ([⟨10, 1⟩, ⟨250, 2⟩, ⟨20, 0⟩].map .number)
    obtain ⟨n, ns, r, hargs, hanswers, -, hvalue⟩ := hresult hnone (hfits _ _ (by decide +kernel))
    obtain ⟨r', hanswers', hvalue'⟩ :=
      hperm (.inr rfl) _ r (hmoved.map Value.number) hanswers (hfits _ _ (by decide +kernel))
    refine ⟨r, r', ?_, hvalue', hanswers, hanswers'⟩
    obtain ⟨rfl, rfl⟩ := List.cons.inj (Value.map_number_injective hargs)
    rw [hvalue hmultiply]
    norm_num [operands, start, exact, Decimal.value]
  · obtain ⟨-, -, -, -, -, hback⟩ := folds_exactly subtract []
    obtain ⟨r, hvalue, hbounded⟩ := hback ⟨25, 2⟩ ⟨0, 3⟩
    refine ⟨r, ?_, hbounded _ _ _ 4611686018427387901 rfl rfl⟩
    rw [hvalue]
    norm_num [Decimal.value]

/-- Division by zero comes too late where the quotient before it breaks off. -/
theorem folds_leave_range :
    let args := [.number ⟨0, -9223372036854775808⟩, .number ⟨1, 1⟩, .number ⟨0, 0⟩]
    (∀ v ∈ args, ∃ n : Decimal, v = .number n ∧ n.Kept)
    ∧ divide.Refuses args .divisionByZero ∧ divide.AnswersInRange args none := by
  intro args
  have hdivisor : (⟨1, 1⟩ : Decimal).value ≠ 0 := by norm_num [Decimal.value]
  have hzero : (⟨0, 0⟩ : Decimal).value = 0 := by norm_num [Decimal.value]
  have hmakes : divide.Makes ⟨0, -9223372036854775808⟩ [⟨1, 1⟩, ⟨0, 0⟩]
      ⟨0, -9223372036854775808⟩ ⟨1, 1⟩ := makes_cons_iff.2 (.inl ⟨rfl, rfl⟩)
  have hrefuses : divide.Refuses
      (([⟨0, -9223372036854775808⟩, ⟨1, 1⟩, ⟨0, 0⟩] : List Decimal).map .number) .divisionByZero :=
    .zeroDivisor rfl ⟨⟨0, 0⟩, List.mem_cons_of_mem _ List.mem_cons_self, hzero⟩
  refine ⟨?_, hrefuses, ?_⟩
  · simp only [args, List.forall_mem_cons]
    exact ⟨⟨_, rfl, by decide⟩, ⟨_, rfl, by decide⟩, ⟨_, rfl, by decide⟩, List.forall_mem_nil _⟩
  · exact answersInRange_none_iff.2
      ⟨_, [⟨1, 1⟩, ⟨0, 0⟩], _, _, rfl, hmakes, .difference hdivisor (by decide)⟩

end Operation

end QLisp
