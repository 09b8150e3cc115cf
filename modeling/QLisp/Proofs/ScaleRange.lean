import QLisp.Eval.Range
import QLisp.Proofs.Arithmetic
import QLisp.Proofs.QuotientRounding

/-!
# Arithmetic and the range of scales

A decimal is kept if its scale is in the range. Sums and differences of kept decimals are kept. The
scale of a product may leave the range, and so may the scales that a quotient is computed with: the
difference of the two scales, and the scale at which the exact quotient has the precision that
quotients have. `Operation.Overflows` lists these steps, and `Operation.fits_eq_false_iff` says that
they are the ones which are noticed.

What breaks an evaluation off is then a product or a quotient in whose fold there is such a step
(`Event.fits_eq_false_iff`), and a fold without one has a result that is kept
(`Operation.kept_foldlM`).
-/

set_option autoImplicit false

namespace QLisp

namespace Decimal

/-- A decimal whose scale can be kept. -/
def Kept (d : Decimal) : Prop :=
  fitsScale d.scale = true

/-- Whether a decimal can be kept can be told. -/
instance (d : Decimal) : Decidable d.Kept :=
  inferInstanceAs (Decidable (_ = true))

variable {a b q : Decimal}

/-- A scale fits if it is between the least and the greatest one. -/
theorem fitsScale_iff {s : ℤ} : fitsScale s = true ↔ minScale ≤ s ∧ s ≤ maxScale := by
  simp [fitsScale]

/-- The range has no gaps. -/
theorem fitsScale_of_between {s t u : ℤ} (hs : fitsScale s = true) (hu : fitsScale u = true)
    (hst : s ≤ t) (htu : t ≤ u) : fitsScale t = true := by
  rw [fitsScale_iff] at *
  omega

/-- Integers are kept. -/
theorem kept_ofInt (n : ℤ) : (ofInt n).Kept :=
  rfl

/-- The greater one of two scales that fit does. -/
theorem Kept.max (ha : a.Kept) (hb : b.Kept) : fitsScale (Max.max a.scale b.scale) = true := by
  rcases max_choice a.scale b.scale with h | h <;> rw [h]
  · exact ha
  · exact hb

/-- The common scale is the greater one. -/
theorem commonScale_eq_max (a b : Decimal) : commonScale a b = max a.scale b.scale := by
  unfold commonScale
  split <;> omega

/-- A number that is added to zero is kept. -/
theorem kept_widenedByZero (ha : a.Kept) (hb : b.Kept) : (a.widenedByZero b.scale).Kept := by
  have hscale : (a.widenedByZero b.scale).scale
      = a.scale + Nat.min (b.scale - a.scale).toNat zeroTermLimit := rfl
  have hleft : Nat.min (b.scale - a.scale).toNat zeroTermLimit ≤ (b.scale - a.scale).toNat :=
    Nat.min_le_left _ _
  apply fitsScale_of_between ha (ha.max hb) <;> rw [hscale] <;> omega

/-- A sum of kept decimals is kept. -/
theorem Kept.add (ha : a.Kept) (hb : b.Kept) : (a.add b).Kept := by
  unfold Decimal.add
  split
  · exact kept_widenedByZero ha hb
  split
  · exact kept_widenedByZero hb ha
  · rw [Kept, commonScale_eq_max]
    exact ha.max hb

/-- A difference of kept decimals is kept. -/
theorem Kept.sub (ha : a.Kept) (hb : b.Kept) : (a.sub b).Kept := by
  rw [Kept, Decimal.sub, commonScale_eq_max]
  exact ha.max hb

/-- The scale of a product. -/
theorem scale_mul (a b : Decimal) : (a.mul b).scale = productScale a b := by
  unfold mul productScale
  split
  · rfl
  split <;> rfl

/-- The scales that a quotient is computed with: the difference of the scales and, unless the
dividend is zero, the scale at which the quotient is rounded, also before that of the divisor is
taken away. -/
theorem quotientFits_eq_false_iff (hb : b.value ≠ 0) :
    quotientFits a b = false ↔
      fitsScale (a.scale - b.scale) = false
      ∨ ∃ e, HasPrecision quotientPrecision |a.value / b.value| e
        ∧ (fitsScale e = false ∨ fitsScale (e + b.scale) = false) := by
  have hbdigits : b.digits ≠ 0 := by
    rwa [ne_eq, ← isZero_iff_value_eq_zero, isZero, beq_iff_eq] at hb
  by_cases ha : a.digits = 0
  · have hzero : a.value = 0 := by rw [value, ha, Int.cast_zero, zero_mul]
    have hnone : ∀ e, ¬ HasPrecision quotientPrecision |a.value / b.value| e := by
      intro e he
      have hpos := he.pos
      rw [hzero, zero_div, abs_zero] at hpos
      exact lt_irrefl _ hpos
    simp [quotientFits, isZero, ha, hnone]
  · obtain ⟨hprecision, -⟩ :=
      roundedQuotient_spec (Int.natAbs_pos.2 ha) (Int.natAbs_pos.2 hbdigits)
    rw [HasPrecision, ← abs_value_div a b] at hprecision
    unfold quotientFits
    generalize (roundedQuotient a.digits.natAbs b.digits.natAbs).2 = places at hprecision ⊢
    -- There is only one scale that gives the quotient this precision.
    have honly : ∀ e, HasPrecision quotientPrecision |a.value / b.value| e ↔
        e = places + a.scale - b.scale :=
      fun e => ⟨fun he => HasPrecision.unique hprecision he, fun he => he ▸ hprecision⟩
    simp only [isZero, beq_eq_false_iff_ne.2 ha, Bool.false_or, Bool.and_eq_false_iff, honly,
      exists_eq_left, sub_add_cancel]
    tauto

/-- A quotient has no larger scale than it is rounded at, unless that one is negative. -/
theorem kept_stripped (sign : ℤ) (n : ℕ) {scale : ℤ} (preferred : ℤ)
    (h : fitsScale scale = true) :
    (withoutNegativeScale (stripped sign n scale preferred)).Kept := by
  have hle : (stripped sign n scale preferred).scale ≤ scale := by
    obtain ⟨-, hleft⟩ := dropZeros_eq (scale - preferred).toNat n
    simp only [stripped]
    omega
  have hzero : fitsScale 0 = true := rfl
  rw [Kept, scale_withoutNegativeScale]
  rcases max_choice (stripped sign n scale preferred).scale 0 with hmax | hmax
  · exact fitsScale_of_between hzero h (le_max_right _ _) (hmax.trans_le hle)
  · rw [hmax]
    exact hzero

/-- A quotient is kept if the scales that it is computed with are. -/
theorem kept_of_divide? (hfits : quotientFits a b = true) (h : divide? a b = some q) : q.Kept := by
  have hb : b.digits ≠ 0 := by
    intro hzero
    rw [(divide?_eq_none_iff a b).2 hzero] at h
    cases h
  simp only [quotientFits, Bool.and_eq_true, Bool.or_eq_true] at hfits
  obtain ⟨hdifference, hplaces⟩ := hfits
  by_cases ha : a.digits = 0
  · rw [divide?_of_zero hb ha] at h
    obtain rfl := Option.some.inj h
    rcases max_choice (a.scale - b.scale) 0 with hmax | hmax <;> rw [Kept, hmax]
    · exact hdifference
    · rfl
  · obtain ⟨-, hrounded⟩ := hplaces.resolve_left (by simpa [isZero] using ha)
    simp only [divide?, isZero, beq_iff_eq, ha, hb, if_false] at h
    rw [quotient_eq_stripped] at h
    obtain rfl := Option.some.inj h
    exact kept_stripped _ _ _ hrounded

end Decimal

/-! ## Steps and folds -/

namespace Operation

variable {op : Operation} {a b c r : Decimal} {ns : List Decimal}

/-- Whether all scales that a step computes can be kept. -/
def fits : Operation → Decimal → Decimal → Bool
  | multiply => Decimal.productFits
  | divide => Decimal.quotientFits
  | _ => fun _ _ => true

/-- The steps that compute a scale which cannot be kept: a product may have one, and a quotient may
have one as the difference of the scales, as the scale that gives the exact quotient the precision
of quotients, or as this one before the scale of the divisor is taken away. -/
inductive Overflows : Operation → Decimal → Decimal → Prop
  | product {a b : Decimal} (h : ¬ (a.mul b).Kept) : Overflows multiply a b
  | difference {a b : Decimal} (hb : b.value ≠ 0)
    (h : Decimal.fitsScale (a.scale - b.scale) = false) : Overflows divide a b
  | rounded {a b : Decimal} {e : ℤ}
    (he : Decimal.HasPrecision Decimal.quotientPrecision |a.value / b.value| e)
    (h : Decimal.fitsScale e = false ∨ Decimal.fitsScale (e + b.scale) = false) :
    Overflows divide a b

/-- A step that has a result overflows exactly if its scales do not fit. -/
theorem overflows_iff : op.Overflows a b ↔ op.step a b ≠ none ∧ op.fits a b = false := by
  cases op with
  | multiply =>
    have hfits : multiply.fits a b = false ↔ ¬ (a.mul b).Kept := by
      rw [Decimal.Kept, Decimal.scale_mul, Bool.not_eq_true]
      rfl
    rw [hfits]
    constructor
    · rintro ⟨h⟩
      exact ⟨Option.some_ne_none _, h⟩
    · exact fun h => .product h.2
  | divide =>
    rw [ne_eq, step_eq_none_iff, eq_self_iff_true, true_and]
    constructor
    · rintro (_ | ⟨hb, h⟩ | ⟨he, h⟩)
      · exact ⟨hb, (Decimal.quotientFits_eq_false_iff hb).2 (.inl h)⟩
      · have hb : b.value ≠ 0 := by
          rintro hzero
          have hpos := he.pos
          rw [hzero, div_zero, abs_zero] at hpos
          exact lt_irrefl _ hpos
        exact ⟨hb, (Decimal.quotientFits_eq_false_iff hb).2 (.inr ⟨_, he, h⟩)⟩
    · rintro ⟨hb, hfits⟩
      rcases (Decimal.quotientFits_eq_false_iff hb).1 hfits with h | ⟨e, he, h⟩
      · exact .difference hb h
      · exact .rounded he h
  | _ =>
    constructor
    · rintro ⟨⟩
    · rintro ⟨-, hfits⟩
      cases hfits

/-- A step whose scales fit has a result that is kept. -/
theorem kept_step (hfits : op.fits a b = true) (ha : a.Kept) (hb : b.Kept)
    (h : op.step a b = some c) : c.Kept := by
  cases op with
  | add => exact Option.some.inj h ▸ ha.add hb
  | subtract => exact Option.some.inj h ▸ ha.sub hb
  | multiply =>
    obtain rfl := Option.some.inj h
    rw [Decimal.Kept, Decimal.scale_mul]
    exact hfits
  | divide => exact Decimal.kept_of_divide? hfits h

/-- A fold whose scales fit has a result that is kept. -/
theorem kept_foldlM (hfits : Primitive.foldFits op.fits op.step a ns = true) (ha : a.Kept)
    (hns : ∀ n ∈ ns, n.Kept) (h : ns.foldlM op.step a = some r) : r.Kept := by
  induction ns generalizing a with
  | nil => exact Option.some.inj h ▸ ha
  | cons n ns ih =>
    rw [List.forall_mem_cons] at hns
    rw [List.foldlM_cons] at h
    rw [Primitive.foldFits] at hfits
    cases hstep : op.step a n with
    | none =>
      rw [hstep] at h
      cases h
    | some c =>
      rw [hstep] at h hfits
      obtain ⟨hfirst, hrest⟩ := Bool.and_eq_true_iff.1 hfits
      exact ih hrest (kept_step hfirst ha hns.1 hstep) hns.2 h

/-- The fold of an operation from `a` over numbers makes a step from `acc` with `d`. -/
def Makes (op : Operation) (a : Decimal) (ns : List Decimal) (acc d : Decimal) : Prop :=
  ∃ before after, ns = before ++ d :: after ∧ before.foldlM op.step a = some acc

/-- Without numbers to fold no step is made. -/
theorem not_makes_nil {acc d : Decimal} : ¬ op.Makes a [] acc d := by
  rintro ⟨before, after, hns, -⟩
  simp at hns

/-- A fold makes its first step, and goes on from the result if there is one. -/
theorem makes_cons_iff {n acc d : Decimal} :
    op.Makes a (n :: ns) acc d ↔ (acc = a ∧ d = n) ∨ ∃ c, op.step a n = some c
      ∧ op.Makes c ns acc d := by
  constructor
  · rintro ⟨before, after, hns, hacc⟩
    cases before with
    | nil =>
      obtain ⟨rfl, rfl⟩ := List.cons.inj hns
      exact .inl ⟨(Option.some.inj hacc).symm, rfl⟩
    | cons first before =>
      obtain ⟨rfl, rfl⟩ := List.cons.inj hns
      obtain ⟨c, hstep, hacc⟩ := Option.bind_eq_some_iff.1 hacc
      exact .inr ⟨c, hstep, before, after, rfl, hacc⟩
  · rintro (⟨rfl, rfl⟩ | ⟨c, hstep, before, after, rfl, hacc⟩)
    · exact ⟨[], ns, rfl, rfl⟩
    · exact ⟨n :: before, after, rfl, Option.bind_eq_some_iff.2 ⟨c, hstep, hacc⟩⟩

/-- The scales of a fold do not fit exactly if it makes a step that overflows. -/
theorem foldFits_eq_false_iff :
    Primitive.foldFits op.fits op.step a ns = false ↔
      ∃ acc d, op.Makes a ns acc d ∧ op.Overflows acc d := by
  induction ns generalizing a with
  | nil => simp [Primitive.foldFits, not_makes_nil]
  | cons n ns ih =>
    have hfirst : op.Overflows a n ↔ op.step a n ≠ none ∧ op.fits a n = false := overflows_iff
    simp only [makes_cons_iff, or_and_right, exists_or]
    rw [Primitive.foldFits]
    cases hstep : op.step a n with
    | none => simp [hfirst, hstep]
    | some c => simp [hfirst, hstep, ih, -Bool.and_eq_false_imp, Bool.and_eq_false_iff]

/-- Where every step keeps its scale, so does the fold. -/
theorem foldFits_of_fits {f : Decimal → Decimal → Option Decimal} (a : Decimal)
    (ns : List Decimal) : Primitive.foldFits (fun _ _ => true) f a ns = true := by
  induction ns generalizing a with
  | nil => rfl
  | cons n ns ih =>
    rw [Primitive.foldFits]
    cases f a n with
    | none => rfl
    | some c => exact ih c

/-- A builtin of arithmetic that is applied to numbers keeps its scales if its fold does. -/
theorem scalesFit_numbers (op : Operation) (n : Decimal) (ns : List Decimal) :
    Primitive.scalesFit ((n :: ns).map .number) op.builtin
      = Primitive.foldFits op.fits op.step (op.operands n ns).1 (op.operands n ns).2 := by
  have hall := Primitive.forAll_expectNumber op.builtin (n :: ns)
  cases op with
  | multiply =>
    show Primitive.argumentsFit multiply.builtin multiply.start multiply.fits multiply.step _ = _
    unfold Primitive.argumentsFit
    rw [hall]
    cases ns <;> rfl
  | divide =>
    show Primitive.argumentsFit divide.builtin divide.start divide.fits divide.step _ = _
    unfold Primitive.argumentsFit
    rw [hall]
    cases ns <;> rfl
  | _ => exact (foldFits_of_fits _ _).symm

end Operation

/-! ## What breaks an evaluation off -/

/-- Only numbers can have scales that cannot be kept. -/
theorem Primitive.exists_numbers_of_argumentsFit {f : Builtin} {alone : Option Decimal}
    {fits : Decimal → Decimal → Bool} {step : Decimal → Decimal → Option Decimal}
    {args : List Value} (h : argumentsFit f alone fits step args = false) :
    ∃ n ns, args = (n :: ns).map .number := by
  unfold argumentsFit at h
  rcases numbers_or_first args with ⟨ns, rfl⟩ | ⟨ns, v, after, rfl, hv⟩
  · cases ns with
    | nil => cases alone <;> cases h
    | cons n ns => exact ⟨n, ns, rfl⟩
  · have hfirst := forAll_of_first_fault _ .number (fun _ => rfl) ns (expectNumber_of_ne f hv) after
    rw [hfirst] at h
    cases alone <;> cases h

namespace Event

/-- The events that break an evaluation off: an operation is applied to numbers, and in the fold a
step overflows. -/
inductive Overflows : Event → Prop
  | application (scope : Scope) (op : Operation) {n acc d : Decimal} {ns : List Decimal}
    (hmakes : op.Makes (op.operands n ns).1 (op.operands n ns).2 acc d)
    (h : op.Overflows acc d) :
    Overflows (.application scope (.builtin op.builtin) ((n :: ns).map .number))

/-- The events with a scale that cannot be kept. -/
theorem fits_eq_false_iff {e : Event} : e.fits = false ↔ e.Overflows := by
  have hnumbers : ∀ (scope : Scope) (op : Operation) (args : List Value),
      (∃ n ns, args = (n :: ns).map .number) →
      Primitive.scalesFit args op.builtin = false →
      Overflows (.application scope (.builtin op.builtin) args) := by
    rintro scope op _ ⟨n, ns, rfl⟩ h
    rw [op.scalesFit_numbers, Operation.foldFits_eq_false_iff] at h
    obtain ⟨acc, d, hmakes, h⟩ := h
    exact .application scope op hmakes h
  constructor
  · intro h
    match e, h with
    | .application scope (.builtin .multiply) args, h =>
      exact hnumbers scope .multiply args (Primitive.exists_numbers_of_argumentsFit h) h
    | .application scope (.builtin .divide) args, h =>
      exact hnumbers scope .divide args (Primitive.exists_numbers_of_argumentsFit h) h
  · rintro ⟨scope, op, hmakes, h⟩
    show Primitive.scalesFit _ op.builtin = false
    rw [op.scalesFit_numbers, Operation.foldFits_eq_false_iff]
    exact ⟨_, _, hmakes, h⟩

end Event

end QLisp
