import QLisp.Proofs.RoundTrip
import QLisp.Proofs.ScaleRange
import QLisp.Proofs.Separation

/-!
# Evaluation keeps the range of scales

A value is kept if all numbers that stand in it are. Programs are kept when they are read, since
literals have scale zero or one. Evaluation that breaks off where a scale does not fit only gets to
kept values from there: `Eval.inspected` also breaks off at any value that is not kept, whether it
is evaluated, applied, passed to a function or answered, and it is the same evaluation
(`Eval.bounded_keepsSame`), as all of the interpreter is (`Interp.keptSimulation`).
-/

set_option autoImplicit false

namespace QLisp

/-! ## The numbers in values -/

namespace Value

mutual

/-- The numbers that stand in a value. -/
def numbers : Value → List Decimal
  | number n => [n]
  | sexpr items => numbersAll items
  | qexpr items => numbersAll items
  | lambda _ body _ => numbersAll body
  | text _ | symbol _ | builtin _ => []

/-- The numbers that stand in several values. -/
def numbersAll : List Value → List Decimal
  | [] => []
  | v :: vs => v.numbers ++ numbersAll vs

end

/-- A value in which all numbers are kept. -/
def Kept (v : Value) : Prop :=
  ∀ n ∈ v.numbers, n.Kept

/-- Whether the numbers in a value are kept can be told. -/
instance (v : Value) : Decidable v.Kept :=
  inferInstanceAs (Decidable (∀ n ∈ v.numbers, n.Kept))

variable {items body : List Value}

/-- The numbers in a list of values are kept if those in each of them are. -/
theorem forall_numbersAll_iff {vs : List Value} :
    (∀ n ∈ numbersAll vs, n.Kept) ↔ ∀ v ∈ vs, v.Kept := by
  induction vs with
  | nil => simp [numbersAll]
  | cons v vs ih => rw [numbersAll, List.forall_mem_append, ih, List.forall_mem_cons, Kept]

/-- A number is kept as a value if it is kept. -/
theorem kept_number_iff {n : Decimal} : (number n).Kept ↔ n.Kept := by
  rw [Kept, numbers, List.forall_mem_singleton]

/-- An S-expression is kept if its items are. -/
theorem kept_sexpr_iff : (sexpr items).Kept ↔ ∀ v ∈ items, v.Kept :=
  forall_numbersAll_iff

/-- A list is kept if its items are. -/
theorem kept_qexpr_iff : (qexpr items).Kept ↔ ∀ v ∈ items, v.Kept :=
  forall_numbersAll_iff

/-- A lambda is kept if its body is. -/
theorem kept_lambda_iff {params : List String} {captured : Scope} :
    (lambda params body captured).Kept ↔ ∀ v ∈ body, v.Kept :=
  forall_numbersAll_iff

/-- The unit value is kept. -/
theorem kept_unit : unit.Kept :=
  nofun

/-- Builtins are kept. -/
theorem kept_builtin (b : Builtin) : (builtin b).Kept :=
  nofun

/-- Truth values are kept. -/
theorem kept_ofBool (b : Bool) : (ofBool b).Kept :=
  kept_number_iff.2 (Decimal.kept_ofInt _)

/-! ## Programs -/

/-- An atom of a source is kept. -/
theorem kept_ofAtom {a : Atom} (h : a.Lexical) : (ofAtom a).Kept := by
  cases a with
  | number n =>
    rw [ofAtom, kept_number_iff, Decimal.Kept]
    rcases h with hscale | hscale <;> rw [hscale] <;> rfl
  | text content | symbol name => exact fun _ hn => absurd hn List.not_mem_nil

mutual

/-- A form of a source is kept. -/
theorem kept_ofForm (f : Form) (hf : ∀ k ∈ f.yield, k.Lexical) : (ofForm f).Kept := by
  cases f with
  | atom a span =>
    rw [Form.yield, List.forall_mem_singleton] at hf
    exact kept_ofAtom hf
  | group d items span =>
    have hinside : ∀ k ∈ Form.yieldAll items, k.Lexical :=
      fun k hk => hf k (List.mem_append_left _ (List.mem_cons_of_mem _ hk))
    have hitems := kept_ofForms items hinside
    cases d with
    | paren => exact kept_sexpr_iff.2 hitems
    | brace => exact kept_qexpr_iff.2 hitems

/-- The forms of a source are kept. -/
theorem kept_ofForms (fs : List Form) (hfs : ∀ k ∈ Form.yieldAll fs, k.Lexical) :
    ∀ v ∈ ofForms fs, v.Kept := by
  cases fs with
  | nil => exact nofun
  | cons f fs =>
    rw [Form.yieldAll, List.forall_mem_append] at hfs
    rw [ofForms, List.forall_mem_cons]
    exact ⟨kept_ofForm f hfs.1, kept_ofForms fs hfs.2⟩

end

end Value

/-- Whatever is read is kept. -/
theorem Program.kept_of_read {source : String} {v : Value} (h : read source = .ok v) : v.Kept := by
  obtain ⟨fs, rfl, hfs⟩ := exists_forms_of_read h
  exact Value.kept_sexpr_iff.2 (Value.kept_ofForms fs hfs)

/-! ## Results of builtins -/

namespace Primitive

variable {f : Builtin} {args items : List Value} {v : Value}

/-- The items of a list that is kept are. -/
theorem kept_of_expectList (hv : v.Kept) (h : expectList f v = .ok items) :
    ∀ w ∈ items, w.Kept := by
  cases v with
  | qexpr _ =>
    obtain rfl := Except.ok.inj h
    exact Value.kept_qexpr_iff.1 hv
  | _ => cases h

/-- The items of a single list that is kept are. -/
theorem kept_of_expectOneList (hargs : ∀ v ∈ args, v.Kept) (h : expectOneList f args = .ok items) :
    ∀ w ∈ items, w.Kept := by
  unfold expectOneList at h
  split at h
  · exact kept_of_expectList (hargs _ (List.mem_singleton.2 rfl)) h
  · cases h

/-- The items of all lists. -/
theorem kept_of_forAll_expectList {lists : List (List Value)} (hargs : ∀ v ∈ args, v.Kept)
    (h : forAll (expectList f) args = .ok lists) : ∀ w ∈ lists.flatten, w.Kept := by
  induction args generalizing lists with
  | nil =>
    obtain rfl := Except.ok.inj h
    exact nofun
  | cons v args ih =>
    rw [List.forall_mem_cons] at hargs
    obtain ⟨first, hfirst, h⟩ := eq_ok_of_bind h
    obtain ⟨others, hothers, h⟩ := eq_ok_of_bind h
    obtain rfl := Except.ok.inj h
    rw [List.flatten_cons, List.forall_mem_append]
    exact ⟨kept_of_expectList hargs.1 hfirst, ih hargs.2 hothers⟩

/-- The head of what is kept is. -/
theorem kept_of_head (hargs : ∀ v ∈ args, v.Kept) (h : head args = .ok v) : v.Kept := by
  obtain ⟨items, hitems, h⟩ := eq_ok_of_bind h
  obtain rfl := Except.ok.inj h
  exact Value.kept_qexpr_iff.2 fun w hw =>
    kept_of_expectOneList hargs hitems w (List.mem_of_mem_take hw)

/-- The tail of what is kept is. -/
theorem kept_of_tail (hargs : ∀ v ∈ args, v.Kept) (h : tail args = .ok v) : v.Kept := by
  obtain ⟨items, hitems, h⟩ := eq_ok_of_bind h
  obtain rfl := Except.ok.inj h
  exact Value.kept_qexpr_iff.2 fun w hw =>
    kept_of_expectOneList hargs hitems w (List.mem_of_mem_drop hw)

/-- Joined lists that are kept are. -/
theorem kept_of_join (hargs : ∀ v ∈ args, v.Kept) (h : join args = .ok v) : v.Kept := by
  obtain ⟨lists, hlists, h⟩ := eq_ok_of_bind h
  obtain rfl := Except.ok.inj h
  exact Value.kept_qexpr_iff.2 (kept_of_forAll_expectList hargs hlists)

/-- The result of an equality is kept. -/
theorem kept_of_equal (h : equal args = .ok v) : v.Kept := by
  obtain ⟨_, -, h⟩ := eq_ok_of_bind h
  obtain rfl := Except.ok.inj h
  exact Value.kept_ofBool _

/-- The result of an inequality is kept. -/
theorem kept_of_unequal (h : unequal args = .ok v) : v.Kept := by
  obtain ⟨_, -, h⟩ := eq_ok_of_bind h
  obtain rfl := Except.ok.inj h
  exact Value.kept_ofBool _

/-- Raising an error has no result. -/
theorem raise_ne_ok (args : List Value) (v : Value) : raise args ≠ .ok v := by
  intro h
  obtain ⟨_, -, h⟩ := eq_ok_of_bind h
  obtain ⟨_, -, h⟩ := eq_ok_of_bind h
  cases h

/-- The result of a comparison is kept. -/
theorem kept_of_compare {holds : Decimal → Decimal → Bool} (h : compare f holds args = .ok v) :
    v.Kept := by
  obtain ⟨_, -, h⟩ := eq_ok_of_bind h
  obtain ⟨_, -, h⟩ := eq_ok_of_bind h
  obtain ⟨_, -, h⟩ := eq_ok_of_bind h
  obtain rfl := Except.ok.inj h
  exact Value.kept_ofBool _

/-- The body of a lambda that is kept is. -/
theorem kept_of_lambdaParts {parts : List String × List Value} (hargs : ∀ v ∈ args, v.Kept)
    (h : lambdaParts args = .ok parts) : ∀ w ∈ parts.2, w.Kept := by
  obtain ⟨⟨params, body⟩, htwo, h⟩ := eq_ok_of_bind h
  obtain ⟨_, -, h⟩ := eq_ok_of_bind h
  obtain ⟨names, -, h⟩ := eq_ok_of_bind h
  obtain ⟨items, hitems, h⟩ := eq_ok_of_bind h
  obtain rfl := Except.ok.inj h
  refine kept_of_expectList (hargs body ?_) hitems
  unfold expectTwo at htwo
  split at htwo
  · obtain ⟨rfl, rfl⟩ := Prod.mk.inj (Except.ok.inj htwo)
    simp
  · cases htwo

/-- A branch that is kept is. -/
theorem kept_of_selectBranch (hargs : ∀ v ∈ args, v.Kept) (h : selectBranch args = .ok items) :
    ∀ w ∈ items, w.Kept := by
  obtain ⟨⟨condition, onTrue, onFalse⟩, hthree, h⟩ := eq_ok_of_bind h
  have hmem : onTrue ∈ args ∧ onFalse ∈ args := by
    unfold expectThree at hthree
    split at hthree
    · cases hthree
      simp
    · cases hthree
  cases condition with
  | number n =>
    obtain ⟨_, -, h⟩ := eq_ok_of_bind h
    obtain ⟨whenTrue, htrue, h⟩ := eq_ok_of_bind h
    obtain ⟨whenFalse, hfalse, h⟩ := eq_ok_of_bind h
    obtain rfl := Except.ok.inj h
    split
    · exact kept_of_expectList (hargs onFalse hmem.2) hfalse
    · exact kept_of_expectList (hargs onTrue hmem.1) htrue
  | _ => cases h

end Primitive

namespace Operation

variable {op : Operation} {args : List Value} {v : Value}

/-- What is folded is kept if the arguments are. -/
theorem kept_operands (op : Operation) {n : Decimal} {ns : List Decimal}
    (hns : ∀ d ∈ n :: ns, d.Kept) :
    (op.operands n ns).1.Kept ∧ ∀ d ∈ (op.operands n ns).2, d.Kept := by
  have hstart : ∀ a, op.start = some a → a.Kept := by
    intro a ha
    cases op <;> cases ha <;> exact Decimal.kept_ofInt _
  unfold operands
  split
  · next a ha =>
    exact ⟨hstart a ha, hns⟩
  · exact List.forall_mem_cons.1 hns

/-- A builtin of arithmetic that keeps its scales has a result that is kept. -/
theorem kept_of_arithmetic (hfits : Primitive.scalesFit args op.builtin = true)
    (hargs : ∀ v ∈ args, v.Kept)
    (h : Primitive.arithmetic op.builtin op.start op.attempt args = .ok v) : v.Kept := by
  obtain ⟨n, ns, rfl⟩ := exists_numbers (not_refuses_of_answers (answers_iff.2 h))
  have hns : ∀ d ∈ n :: ns, d.Kept :=
    fun d hd => Value.kept_number_iff.1 (hargs _ (List.mem_map_of_mem hd))
  obtain ⟨hfirst, hothers⟩ := op.kept_operands hns
  rw [scalesFit_numbers] at hfits
  rw [arithmetic_numbers] at h
  split at h
  · next r hr =>
    obtain rfl := Except.ok.inj h
    exact Value.kept_number_iff.2 (kept_foldlM hfits hfirst hothers hr)
  · cases h

end Operation

/-- What a builtin that keeps its scales gets out of kept arguments is kept. -/
theorem Builtin.yields_kept {b : Builtin} {args : List Value}
    (hfits : Primitive.scalesFit args b = true) (hargs : ∀ v ∈ args, v.Kept) :
    b.deed.Yields Value.Kept Value.Kept True args := by
  have harithmetic : ∀ op : Operation, op.builtin = b → ∀ v,
      Primitive.arithmetic op.builtin op.start op.attempt args = .ok v → v.Kept :=
    fun op hop _ hv => Operation.kept_of_arithmetic (hop ▸ hfits) hargs hv
  have hbound : ∀ (f : Builtin) bound, Primitive.bindings f args = .ok bound →
      ∀ binding ∈ bound, binding.2.Kept :=
    fun _ _ hbound _ hbinding => hargs _ (Primitive.mem_of_mem_bindings hbound hbinding)
  cases b with
  | add => exact harithmetic .add rfl
  | subtract => exact harithmetic .subtract rfl
  | multiply => exact harithmetic .multiply rfl
  | divide => exact harithmetic .divide rfl
  | head => exact fun v => Primitive.kept_of_head hargs
  | tail => exact fun v => Primitive.kept_of_tail hargs
  | list => exact fun v hv => Except.ok.inj hv ▸ Value.kept_qexpr_iff.2 hargs
  | evaluate =>
    exact fun items hitems => Value.kept_sexpr_iff.2 (Primitive.kept_of_expectOneList hargs hitems)
  | join => exact fun v => Primitive.kept_of_join hargs
  | define => exact ⟨fun _ => trivial, hbound .define⟩
  | assign => exact ⟨fun _ => trivial, hbound .assign⟩
  | lambda =>
    exact fun params body hparts =>
      Value.kept_sexpr_iff.2 (Primitive.kept_of_lambdaParts hargs hparts)
  | greater | greaterEq | less | lessEq => exact fun v => Primitive.kept_of_compare
  | equal => exact fun v => Primitive.kept_of_equal
  | unequal => exact fun v => Primitive.kept_of_unequal
  | branch =>
    exact fun items hitems => Value.kept_sexpr_iff.2 (Primitive.kept_of_selectBranch hargs hitems)
  | raise => exact fun v hv => absurd hv (Primitive.raise_ne_ok args v)
  | print | load => exact trivial

/-! ## Computations -/

/-- A computation that keeps the range of scales, with results that satisfy `Q`, and one that is
the same in all stores with values that are kept. -/
structure Interp.KeepsSame {α : Type} (Q : α → Prop) (x y : Interp α) : Prop where
  acts : x.Acts Value.Kept (fun _ => True) Q
  same : ∀ host m, m.store.All Value.Kept → y host m = x host m

/-- Two evaluators that keep the range of scales and are the same for values that are kept. -/
def Evaluator.KeepsSame (f g : Evaluator) : Prop :=
  ∀ scope v, v.Kept → Interp.KeepsSame Value.Kept (f scope v) (g scope v)

namespace Interp.KeepsSame

variable {α β : Type} {Q : α → Prop} {R : β → Prop} {x y : Interp α}

/-- A computation beside itself, if it keeps numbers. -/
theorem of_acts (h : x.Acts Value.Kept (fun _ => True) Q) : KeepsSame Q x x :=
  ⟨h, fun _ _ _ => rfl⟩

/-- A result beside itself. -/
theorem pure {a : α} (h : Q a) : KeepsSame Q (Pure.pure a) (Pure.pure a) :=
  of_acts (Acts.pure h)

/-- A plain outcome beside itself. -/
theorem ofExcept {z : Except EvalError α} (h : ∀ a, z = .ok a → Q a) :
    KeepsSame Q (Interp.ofExcept z) (Interp.ofExcept z) :=
  of_acts (Acts.ofExcept h)

/-- One pair of computations after the other. -/
theorem bind {f g : α → Interp β} (hx : KeepsSame Q x y)
    (hf : ∀ a, Q a → KeepsSame R (f a) (g a)) : KeepsSame R (x >>= f) (y >>= g) := by
  refine ⟨hx.acts.bind fun a ha => (hf a ha).acts, fun host m hall => ?_⟩
  rw [bind_apply, bind_apply, hx.same host m hall]
  cases hanswer : x host m with
  | none => rfl
  | some answer =>
    obtain ⟨outcome, m'⟩ := answer
    obtain ⟨hevolves, hresult⟩ := hx.acts host m outcome m' hall hanswer
    cases outcome with
    | error e => rfl
    | ok a => exact (hf a (hresult a rfl)).same host m' (hevolves.all hall)

/-- Another error on both sides. -/
theorem mapError (f : EvalError → EvalError) (hx : KeepsSame Q x y) :
    KeepsSame Q (x.mapError f) (y.mapError f) := by
  refine ⟨hx.acts.mapError f, fun host m hall => ?_⟩
  rw [Interp.mapError, Interp.mapError, hx.same host m hall]

/-- The same new scope on both sides. -/
theorem newScope_bind {f : Store Value → Store Value × Scope} {table : Table Value}
    {enclosing : List Nat}
    (hf : ∀ s, f s = ((s.alloc table).1, ⟨s.tables.size, enclosing⟩))
    (htable : table.All Value.Kept) {k k' : Scope → Interp α}
    (hk : ∀ n, KeepsSame Q (k ⟨n, enclosing⟩) (k' ⟨n, enclosing⟩)) :
    KeepsSame Q (Interp.newScope f >>= k) (Interp.newScope f >>= k') := by
  refine ⟨Acts.newScope_bind hf htable fun n => (hk n).acts.mono fun _ _ => .inl trivial,
    fun host m hall => ?_⟩
  have hnew : ∀ k : Scope → Interp α, (Interp.newScope f >>= k) host m
      = k (f m.store).2 host ⟨(f m.store).1, m.printed, m.requests, m.input⟩ := fun _ => rfl
  rw [hnew, hnew, hf]
  exact (hk _).same host _ (hall.alloc htable)

/-- A permission that the one computation needs beside that of the other one. -/
theorem permitted {permission more : Bool} (hx : permission = true → KeepsSame Q x y)
    (hmore : more = true) :
    KeepsSame Q (Interp.permitted permission x) (Interp.permitted (permission && more) y) := by
  rw [hmore, Bool.and_true]
  cases permission with
  | false => exact of_acts Acts.tooDeep
  | true => exact hx rfl

/-- A result that is looked at once more. -/
theorem accepted (hx : KeepsSame Q x y) {accepts : α → Bool}
    (haccepts : ∀ a, Q a → accepts a = true) :
    KeepsSame Q x (y >>= fun a => Interp.permitted (accepts a) (Pure.pure a)) := by
  refine ⟨hx.acts, fun host m hall => ?_⟩
  rw [bind_apply, hx.same host m hall]
  cases hanswer : x host m with
  | none => rfl
  | some answer =>
    obtain ⟨outcome, m'⟩ := answer
    obtain ⟨-, hresult⟩ := hx.acts host m outcome m' hall hanswer
    cases outcome with
    | error e => rfl
    | ok a =>
      show Interp.permitted (accepts a) (Pure.pure a) host m' = _
      rw [haccepts a (hresult a rfl)]
      rfl

end Interp.KeepsSame

/-- The knowledge that values are kept. -/
def Knowledge.kept : Knowledge Unit where
  Grows _ _ := True
  Inside _ _ := True
  Around _ _ := True
  Code _ v := v.Kept
  Result _ v := v.Kept
  Global := True
  Allowed b args := Primitive.scalesFit args b = true
  grows_refl _ := trivial
  grows_trans _ _ := trivial
  inside_mono _ _ := trivial
  around_mono _ _ := trivial
  around_of_inside _ := trivial
  code_mono h _ := h
  result_mono h _ := h
  result_unit _ := Value.kept_unit
  result_qexpr _ _ := Value.kept_qexpr_iff.2
  result_of_code _ h := h
  code_of_sexpr := Value.kept_sexpr_iff.1
  code_of_read := Program.kept_of_read
  code_of_lambda h := Value.kept_sexpr_iff.2 (Value.kept_lambda_iff.1 h)
  yields := Builtin.yields_kept

open Interp

/-- All of the interpreter is the same where values are kept. -/
def Interp.keptSimulation : Simulation Knowledge.kept Bool where
  Runs _ x := KeepsSame Value.Kept (x false) (x true)
  ofExcept h := .ofExcept h
  bind hx hk := hx.bind fun v hv => hk () v trivial hv
  mapError g hx := hx.mapError g
  inspectStore hk :=
    ⟨fun host m outcome m' hall heq => (hk () m.store trivial hall).acts host m outcome m' hall heq,
      fun host m hall => (hk () m.store trivial hall).same host m hall⟩
  define _ _ hbound := .of_acts <|
    (Acts.defineAll trivial hbound).bind fun _ _ => .pure Value.kept_unit
  printLine _ line := .of_acts <|
    (Acts.printLine line).bind fun _ _ => .pure Value.kept_unit
  readScript {_ path _} hk :=
    (KeepsSame.of_acts (Acts.readScript path)).bind fun source _ => hk () source trivial
  within _ htable hk := .newScope_bind (fun _ => rfl) htable fun _ => hk () _ trivial trivial
  child _ _ hbody := .newScope_bind (fun _ => rfl) Table.All.empty fun _ =>
    .pure (Value.kept_lambda_iff.2 (Value.kept_sexpr_iff.1 hbody))
  alone _ htable hbody := .newScope_bind (fun _ => rfl) htable fun _ =>
    .pure (Value.kept_lambda_iff.2 (Value.kept_sexpr_iff.1 hbody))

/-- Two evaluators that are the same for values that are kept, side by side. -/
theorem Evaluator.KeepsSame.respects {f g : Evaluator} (h : Evaluator.KeepsSame f g) :
    Interp.keptSimulation.Respects fun i => bif i then g else f :=
  fun _ scope v _ hv => h scope v hv

/-! ## Evaluation under inspection -/

/-- Whether something happens without a scale that cannot be kept, and to values that are kept. -/
def Event.inspected (e : Event) : Bool :=
  e.fits && decide (∀ v ∈ e.values, v.Kept)

namespace Eval

/-- Evaluates a value in a scope within the range of scales, and breaks off also as soon as there is
a value that is not kept: one that is evaluated, a function or an argument, or a result. -/
def inspected (depth : Nat) (scope : Scope) (v : Value) : Interp Value :=
  match depth with
  | 0 => Interp.tooDeep
  | depth + 1 => do
    let result ← Interp.permitted (Event.evaluation scope v).inspected
      (stepSupervised Event.inspected (inspected depth) scope v)
    Interp.permitted (decide result.Kept) (pure result)

/-- The application of a function to arguments that are kept. -/
theorem applySupervised_keepsSame {f g : Evaluator} (h : Evaluator.KeepsSame f g) {scope : Scope}
    {args : List Value} (hargs : ∀ v ∈ args, v.Kept) {function : Value}
    (hfunction : function.Kept) :
    KeepsSame Value.Kept (applySupervised Event.fits f scope args function)
      (applySupervised Event.inspected g scope args function) := by
  refine .permitted (fun hfits => ?_)
    (decide_eq_true (List.forall_mem_cons.2 ⟨hfunction, hargs⟩))
  refine Simulation.applyWith h.respects (w := ()) trivial hargs ?_ ?_
  · rintro b rfl
    exact hfits
  · rintro params body captured rfl
    exact Knowledge.kept.code_of_lambda (w := ()) hfunction

/-- One step of evaluation of a value that is kept. -/
theorem stepSupervised_keepsSame {f g : Evaluator} (h : Evaluator.KeepsSame f g) :
    Evaluator.KeepsSame (stepSupervised Event.fits f) (stepSupervised Event.inspected g) := by
  have hstep : keptSimulation.Respects fun i => step
      (bif i then applySupervised Event.inspected g else applySupervised Event.fits f)
      (bif i then g else f) :=
    Simulation.step h.respects fun _ _ _ _ _ hfunction hargs =>
      applySupervised_keepsSame h hargs hfunction
  exact fun scope v hv => hstep () scope v trivial hv

/-- Evaluation of values that are kept, in stores with such values, gets to no others. -/
theorem bounded_keepsSame (depth : Nat) :
    Evaluator.KeepsSame (bounded depth) (inspected depth) := by
  induction depth with
  | zero => exact fun scope v _ => .of_acts Acts.tooDeep
  | succ depth ih =>
    intro scope v hv
    have hstep : KeepsSame Value.Kept
        (Interp.permitted (Event.evaluation scope v).fits
          (stepSupervised Event.fits (bounded depth) scope v))
        (Interp.permitted (Event.evaluation scope v).inspected
          (stepSupervised Event.inspected (inspected depth) scope v)) :=
      .permitted (fun _ => stepSupervised_keepsSame ih scope v hv)
        (decide_eq_true (List.forall_mem_singleton.2 hv))
    exact .accepted hstep fun result hresult => decide_eq_true hresult

end Eval

end QLisp
