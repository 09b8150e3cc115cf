import QLisp.Proofs.ArithmeticInRange
import QLisp.Proofs.Finality
import QLisp.Proofs.KeptNumbers
import QLisp.Proofs.Sequence

/-!
# When scales overflow

The interpreter keeps scales in a range and breaks a call off where one would leave it. A machine
that a fresh root has been brought to by calls of the interpreter holds only numbers whose scales
are in the range, and so does every value that is evaluated, applied, passed to a function or
answered during the next call. What the call answers is what it answers without a range. It has no
answer exactly if there is none without a range either, or if a product or a quotient overflows
during the call. The statement is `Machine.ReachedInRange.keeps_scales`.

A program can get there: of the squares of a tenth, the one of scale `2 ^ 63` is out of the range
(`Squares.leave_range`).
-/

set_option autoImplicit false

namespace QLisp

namespace Call

/-- Carries out a call within the range of scales. -/
def bounded (depth : Nat) : Scope → Call → Interp Value :=
  performBy (Eval.applyBounded (Eval.bounded depth)) (Eval.bounded depth)

/-- Carries out a call within the range of scales, and breaks off also as soon as there is a value
that is not kept. -/
def inspected (depth : Nat) : Scope → Call → Interp Value :=
  performBy (Eval.applySupervised Event.inspected (Eval.inspected depth)) (Eval.inspected depth)

/-- The range of scales is a supervisor. -/
theorem bounded_eq_watched (call : Call) (depth : Nat) (scope : Scope) :
    call.bounded depth scope = call.watched (fun e _ => e.fits) depth scope := rfl

/-- An answer within the range of scales is the answer of the call. -/
theorem bounded_below (call : Call) (depth : Nat) (scope : Scope) :
    Interp.Below (call.bounded depth scope) (call.perform (Eval.evaluate depth) scope) :=
  (call.perform_watchedBy depth scope).below _

/-- A call of values that are kept gets to no others. -/
theorem bounded_keepsSame {call : Call} (hcall : ∀ v ∈ call.values, v.Kept) (depth : Nat)
    (scope : Scope) :
    Interp.KeepsSame Value.Kept (call.bounded depth scope) (call.inspected depth scope) := by
  have heval := Eval.bounded_keepsSame depth
  refine Simulation.performBy (fun i => bif i then
    Eval.applySupervised Event.inspected (Eval.inspected depth)
    else Eval.applyBounded (Eval.bounded depth)) heval.respects (w := ()) trivial ?_ ?_ ?_
  · rintro v rfl
    exact hcall v List.mem_cons_self
  · rintro program rfl
    exact hcall program List.mem_cons_self
  · rintro function args rfl
    have hvalues := List.forall_mem_cons.1 hcall
    exact Eval.applySupervised_keepsSame heval hvalues.2 hvalues.1

end Call

namespace Machine

/-- The machines that a fresh root with the builtins can be brought to: by calls of the interpreter
in whatever scopes, of values that are kept or of sources, which end with a result or an error; and
by definitions of such values and by new scopes. -/
inductive ReachedInRange : Machine → Prop
  | fresh : ReachedInRange withBuiltins.1
  | call {m m' : Machine} (h : ReachedInRange m) {call : Call}
    (hcall : ∀ v ∈ call.values, v.Kept) {depth : Nat} {scope : Scope} {host : Host}
    {outcome : Except EvalError Value}
    (heq : call.bounded depth scope host m = some (outcome, m')) : ReachedInRange m'
  | define {m : Machine} (h : ReachedInRange m) (scope : Scope) (name : String) {v : Value}
    (hv : v.Kept) : ReachedInRange { m with store := m.store.define scope name v }
  | child {m : Machine} (h : ReachedInRange m) : ReachedInRange (m.alloc .empty)

namespace ReachedInRange

/-- What every step of a run keeps: the numbers in all tables are in the range. -/
theorem all_kept {m : Machine} (h : m.ReachedInRange) : m.store.All Value.Kept := by
  induction h with
  | fresh => exact all_withBuiltins Value.kept_builtin
  | call _ hcall heq ih => exact (Call.bounded_keepsSame hcall _ _).acts.all ih heq
  | define _ scope name hv ih => exact ih.define scope name hv
  | child _ ih => exact ih.alloc Table.All.empty

/-- A call in a machine that a fresh root can be brought to. No value that is evaluated or applied,
passed or answered holds a number that is out of the range, and no table holds one afterwards. An
answer is that of the call without a range. The call has no answer within the range exactly if it
has none without a range, or if something overflows during the call, which is a step of a product
or of a quotient. -/
theorem keeps_scales {m : Machine} (hm : m.ReachedInRange) {call : Call}
    (hcall : ∀ v ∈ call.values, v.Kept) (depth : Nat) (scope : Scope) (host : Host) :
    call.bounded depth scope host m = call.inspected depth scope host m
    ∧ (∀ outcome m', call.bounded depth scope host m = some (outcome, m') →
      (∀ v, outcome = .ok v → v.Kept) ∧ m'.store.All Value.Kept
      ∧ call.perform (Eval.evaluate depth) scope host m = some (outcome, m'))
    ∧ (call.bounded depth scope host m = none ↔
      call.perform (Eval.evaluate depth) scope host m = none
      ∨ ∃ e n, e.Overflows ∧ call.Happens depth scope host m e n) := by
  have hkeeps := Call.bounded_keepsSame hcall depth scope
  have hall := hm.all_kept
  refine ⟨(hkeeps.same host m hall).symm, fun outcome m' heq => ?_, ?_⟩
  · obtain ⟨hevolves, hresult⟩ := hkeeps.acts host m outcome m' hall heq
    exact ⟨hresult, hevolves.all hall, call.bounded_below depth scope host m _ heq⟩
  · simp only [Call.bounded_eq_watched, Call.watched_eq_none_iff, Event.fits_eq_false_iff]

set_option maxRecDepth 2000 in
/-- A product of tenths in a machine where `x` is a tenth. -/
theorem keeps_scales_product :
    let m : Machine := { withBuiltins.1 with
      store := withBuiltins.1.store.define withBuiltins.2 "x" (.number ⟨1, 1⟩) }
    let call : Call := .evaluate (.sexpr [.symbol "*", .symbol "x", .symbol "x"])
    m.ReachedInRange ∧ (∀ v ∈ call.values, v.Kept)
    ∧ call.inspected 2 withBuiltins.2 (fun _ => .input) m = some (.ok (.number ⟨1, 2⟩), m)
    ∧ (Value.number ⟨1, 2⟩).Kept ∧ m.store.All Value.Kept
    ∧ ¬ ∃ e n, e.Overflows ∧ call.Happens 2 withBuiltins.2 (fun _ => .input) m e n := by
  intro m call
  have hm : m.ReachedInRange := fresh.define withBuiltins.2 "x" (Value.kept_number_iff.2 rfl)
  have hcall : ∀ v ∈ call.values, v.Kept := List.forall_mem_singleton.2 nofun
  have hanswer : call.bounded 2 withBuiltins.2 (fun _ => .input) m
      = some (.ok (.number ⟨1, 2⟩), m) := by cbv
  obtain ⟨hsame, hkept, hnone⟩ := keeps_scales hm hcall 2 withBuiltins.2 fun _ => .input
  obtain ⟨hresult, hall, -⟩ := hkept _ _ hanswer
  refine ⟨hm, hcall, hsame.symm.trans hanswer, hresult _ rfl, hall, fun hoverflow => ?_⟩
  cases hanswer.symm.trans (hnone.2 (.inr hoverflow))

end ReachedInRange

end Machine

/-! ## Squares of a tenth -/

/-- Two texts that are read as programs, with a line end between them, are read as the forms of the
one program and then those of the other. -/
theorem Program.read_append {s t : String} {vs ws : List Value} (hs : read s = .ok (.sexpr vs))
    (ht : read t = .ok (.sexpr ws)) : read (s ++ "\n" ++ t) = .ok (.sexpr (vs ++ ws)) := by
  obtain ⟨hcleans, hvs⟩ := clean_of_read hs
  obtain ⟨hcleant, hws⟩ := clean_of_read ht
  rw [read_append_newline hcleans hcleant, Value.sexpr.inj hvs, Value.sexpr.inj hws]

/-- A form that returns, before other forms. -/
theorem Machine.Returns.settles_runForms {m m' m'' : Machine} {host : Host} {scope : Scope}
    {form v : Value} {rest : List Value} {outcome : Except EvalError Value} {n : Nat}
    (last : Value) (hform : m.Returns host scope form v m')
    (hrest : Interp.Settles n (fun depth => Program.runForms (Eval.evaluate depth) scope v rest)
      host m' outcome m'') :
    ∃ k, Interp.Settles k
      (fun depth => Program.runForms (Eval.evaluate depth) scope last (form :: rest)) host m outcome
      m'' := by
  obtain ⟨k, hform⟩ := hform
  refine ⟨max k n, fun depth hdepth => ?_⟩
  have hfirst : Eval.evaluate depth scope form host m = some (.ok v, m') :=
    hform depth (by omega)
  show Program.runForms _ scope last (form :: rest) host m = _
  rw [Program.runForms, Interp.bind_apply, Interp.mapError, hfirst]
  exact hrest depth (by omega)

namespace Squares

open Machine

/-- A program that binds `x` to a tenth, and then squares it again and again. -/
def source : Nat → String
  | 0 => "(def {x} 0.1)"
  | count + 1 => source count ++ "\n" ++ "(def {x} (* x x))"

/-- The form that binds `x` to a tenth. -/
def start : Value :=
  .sexpr [.symbol "def", .qexpr [.symbol "x"], .number ⟨1, 1⟩]

/-- The form that squares `x`. -/
def squaring : Value :=
  .sexpr [.symbol "def", .qexpr [.symbol "x"],
    Operation.multiply.code (.symbol "x") (.symbol "x")]

/-- The script is read as its first definition and the squares. -/
theorem read_source (count : Nat) :
    Program.read (source count) = .ok (.sexpr (start :: List.replicate count squaring)) := by
  have hsquaring : Program.read "(def {x} (* x x))" = .ok (.sexpr [squaring]) := by cbv
  induction count with
  | zero => cbv
  | succ count ih =>
    rw [source, Program.read_append ih hsquaring, List.cons_append, List.replicate_succ']

/-- The machine binds `x` to a power of a tenth, and the program has its builtins. -/
structure Holds (m : Machine) (scale : Int) : Prop where
  size_pos : 0 < m.store.tables.size
  define : m.store.get? withBuiltins.2 "def" = some (.builtin .define)
  multiply : m.store.get? withBuiltins.2 "*" = some (.builtin .multiply)
  number : m.store.get? withBuiltins.2 "x" = some (.number ⟨1, scale⟩)

/-- A power of a tenth is no factor one, so the scales are added. -/
theorem mul_self {scale : Int} (h : 0 < scale) :
    Decimal.mul ⟨1, scale⟩ ⟨1, scale⟩ = ⟨1, scale + scale⟩ := by
  have hpow : (1 : Int) ≠ Decimal.pow10 scale.toNat := by
    obtain ⟨k, hk⟩ : ∃ k, scale.toNat = k + 1 := ⟨scale.toNat - 1, by omega⟩
    have hpos := Decimal.pow10_pos k
    rw [hk, Decimal.pow10_succ]
    omega
  have hunit : Decimal.isUnit ⟨1, scale⟩ = false := by simp [Decimal.isUnit, hpow]
  simp [Decimal.mul, hunit]

variable {m : Machine} {scale : Int}

/-- What a machine holds depends on its tables only. -/
theorem Holds.of_store_eq (h : Holds m scale) {m' : Machine} (hstore : m'.store = m.store) :
    Holds m' scale := by
  obtain ⟨hsize, hdefine, hmultiply, hnumber⟩ := h
  rw [← hstore] at hsize hdefine hmultiply hnumber
  exact ⟨hsize, hdefine, hmultiply, hnumber⟩

/-- The machine with the square bound to `x` in the place of its root. -/
theorem Holds.define_square (h : Holds m scale) :
    Holds { m with store := m.store.define withBuiltins.2 "x" (.number ⟨1, scale + scale⟩) }
      (scale + scale) := by
  have hget : ∀ name, (m.store.define withBuiltins.2 "x" (.number ⟨1, scale + scale⟩)).get?
      withBuiltins.2 name = if "x" = name then some (.number ⟨1, scale + scale⟩)
        else m.store.get? withBuiltins.2 name :=
    fun name => Store.get?_define h.size_pos "x" name _
  refine ⟨?_, (hget "def").trans h.define, (hget "*").trans h.multiply, hget "x"⟩
  show 0 < (m.store.define _ _ _).tables.size
  rw [Store.size_define]
  exact h.size_pos

/-- Without a range, a squaring is carried out. -/
theorem Holds.exists_step (h : Holds m scale) (hscale : 0 < scale) (host : Host) :
    ∃ m', m.Returns host withBuiltins.2 squaring .unit m' ∧ Holds m' (scale + scale) := by
  have hproduct : Operation.multiply.Answers ([⟨1, scale⟩, ⟨1, scale⟩].map .number)
      (.ok (.number ⟨1, scale + scale⟩)) := by
    rw [Operation.answers_numbers_iff]
    exact congrArg some (mul_self hscale)
  have hcode : m.Returns host withBuiltins.2
      (Operation.multiply.code (.symbol "x") (.symbol "x")) (.number ⟨1, scale + scale⟩) m :=
    hproduct.returns h.multiply (.symbol h.number) (.symbol h.number)
  have hitems : m.ReturnsAll host withBuiltins.2
      [.symbol "def", .qexpr [.symbol "x"], Operation.multiply.code (.symbol "x") (.symbol "x")]
      [.builtin .define, .qexpr [.symbol "x"], .number ⟨1, scale + scale⟩] m :=
    .cons (.symbol h.define) (.cons (.final rfl) (.cons hcode .nil))
  exact ⟨_, hitems.returns fun _ => rfl, h.define_square⟩

/-- Within the range, a squaring is carried out if the scale of the square can be kept, and
otherwise it has no answer. -/
theorem Holds.bounded_squaring (h : Holds m scale) (hscale : 0 < scale) (host : Host)
    (depth : Nat) :
    Eval.bounded (depth + 3) withBuiltins.2 squaring host m =
      if Decimal.fitsScale (scale + scale) then
        some (.ok .unit,
          { m with store := m.store.define withBuiltins.2 "x" (.number ⟨1, scale + scale⟩) })
      else none := by
  have hproduct : Operation.multiply.AnswersInRange
      ([⟨1, scale⟩, ⟨1, scale⟩].map .number)
      (if Decimal.fitsScale (scale + scale) then some (.ok (.number ⟨1, scale + scale⟩))
        else none) := by
    have hbreaks := Operation.breaksOff_product_iff (a := ⟨1, scale⟩) (b := ⟨1, scale⟩)
    rw [mul_self hscale, Decimal.Kept] at hbreaks
    split
    · next hfits =>
      refine Operation.answersInRange_some_iff.2 ⟨?_, fun h => hbreaks.1 h hfits⟩
      rw [Operation.answers_numbers_iff]
      exact congrArg some (mul_self hscale)
    · next hfits => exact Operation.answersInRange_none_iff.2 (hbreaks.2 hfits)
  have hnumber : Eval.bounded (depth + 1) withBuiltins.2 (.symbol "x") host m
      = some (.ok (.number ⟨1, scale⟩), m) := Eval.bounded_symbol h.number
  have hcode := hproduct.bounded_code h.multiply hnumber hnumber
  have hdef : Eval.bounded (depth + 2) withBuiltins.2 (.symbol "def") host m
      = some (.ok (.builtin .define), m) := Eval.bounded_symbol h.define
  have hname : Eval.bounded (depth + 2) withBuiltins.2 (.qexpr [.symbol "x"]) host m
      = some (.ok (.qexpr [.symbol "x"]), m) := rfl
  split
  · next hfits =>
    rw [if_pos hfits] at hcode
    have hitems : Eval.evaluateItems (Eval.bounded (depth + 2)) withBuiltins.2
        [.symbol "def", .qexpr [.symbol "x"],
          Operation.multiply.code (.symbol "x") (.symbol "x")] host m
          = some (.ok [.builtin .define, .qexpr [.symbol "x"], .number ⟨1, scale + scale⟩], m) := by
      simp [Eval.evaluateItems, Interp.bind_apply, hdef, hname, hcode]
    exact Eval.bounded_call hitems
  · next hfits =>
    rw [if_neg hfits] at hcode
    apply Eval.bounded_call_eq_none
    simp [Eval.evaluateItems, Interp.bind_apply, hdef, hname, hcode]

/-- Every squaring doubles the scale. -/
theorem Holds.exists_run (h : Holds m scale) (hscale : 0 < scale) (host : Host) (count : Nat) :
    ∃ m' n, Interp.Settles n (fun depth => Program.runForms (Eval.evaluate depth) withBuiltins.2
      .unit (List.replicate count squaring)) host m (.ok .unit) m'
      ∧ Holds m' (2 ^ count * scale) := by
  induction count generalizing m scale with
  | zero => exact ⟨m, 0, fun _ _ => rfl, by simpa using h⟩
  | succ count ih =>
    obtain ⟨m₁, hform, h₁⟩ := h.exists_step hscale host
    obtain ⟨m', n, hrest, h'⟩ := ih h₁ (by omega)
    obtain ⟨k, hrun⟩ := hform.settles_runForms .unit hrest
    refine ⟨m', k, hrun, ?_⟩
    have hdouble : (2 : Int) ^ (count + 1) * scale = 2 ^ count * (scale + scale) := by ring
    rwa [hdouble]

/-- Without a range, the program ends with `x` bound to a decimal whose scale is a power of two. -/
theorem exists_run (host : Host) (count : Nat) :
    ∃ m' n, Interp.Settles n
      (fun depth => (Call.runSource (source count)).perform (Eval.evaluate depth) withBuiltins.2)
      host withBuiltins.1 (.ok .unit) m'
      ∧ m'.store.get? withBuiltins.2 "x" = some (.number ⟨1, 2 ^ count⟩) := by
  have hitems : withBuiltins.1.ReturnsAll host withBuiltins.2
      [.symbol "def", .qexpr [.symbol "x"], .number ⟨1, 1⟩]
      [.builtin .define, .qexpr [.symbol "x"], .number ⟨1, 1⟩] withBuiltins.1 :=
    .cons (.symbol rfl) (.cons (.final rfl) (.cons (.final rfl) .nil))
  obtain ⟨m₁, hstart, h₁⟩ : ∃ m₁, withBuiltins.1.Returns host withBuiltins.2 start .unit m₁
      ∧ Holds m₁ 1 :=
    ⟨_, hitems.returns fun _ => rfl, by decide, rfl, rfl, rfl⟩
  obtain ⟨m', n, hrest, h'⟩ := h₁.exists_run one_pos host count
  obtain ⟨k, hrun⟩ := hstart.settles_runForms .unit hrest
  refine ⟨m', k, fun depth hdepth => ?_, by simpa using h'.number⟩
  show Program.runSource (Eval.evaluate depth) withBuiltins.2 (source count) host _ = _
  rw [Program.runSource_of_read _ _ (read_source count)]
  exact hrun depth hdepth

/-- Within the range, the program has no answer if there are too many squarings. -/
theorem bounded_eq_none (host : Host) {count : Nat} (hcount : 63 ≤ count) (depth : Nat) :
    (Call.runSource (source count)).bounded depth withBuiltins.2 host withBuiltins.1 = none := by
  cases hanswer : (Call.runSource (source count)).bounded depth withBuiltins.2 host
      withBuiltins.1 with
  | none => rfl
  | some answer =>
    obtain ⟨outcome, m⟩ := answer
    have hvalues : ∀ v ∈ (Call.runSource (source count)).values, v.Kept := nofun
    have hall : m.store.All Value.Kept := (ReachedInRange.fresh.call hvalues hanswer).all_kept
    -- The answer is that without a range, where `x` has a scale that is too large.
    obtain ⟨m', n, hrun, hnumber⟩ := exists_run host count
    have hexact : Program.runSource (Eval.evaluate (max depth n)) withBuiltins.2 (source count)
        host withBuiltins.1 = some (outcome, m) :=
      (Eval.evaluate_below_of_le (le_max_left depth n)).runSource _ _ host _ _
        (Call.bounded_below _ depth _ host _ _ hanswer)
    obtain ⟨-, rfl⟩ := Prod.mk.inj (Option.some.inj
      ((hrun (max depth n) (le_max_right depth n)).symm.trans hexact))
    have hkept := Value.kept_number_iff.1 (hall.get? hnumber)
    have hlarge : (2 : Int) ^ 63 ≤ 2 ^ count := pow_le_pow_right₀ (by norm_num) hcount
    rw [Decimal.Kept, Decimal.fitsScale_iff, Decimal.maxScale] at hkept
    exact absurd (hlarge.trans hkept.2) (by norm_num)

/-- A tenth that is squared sixty-three times is a number with a scale that is out of the range, and
the interpreter has no answer for a program that does this. -/
theorem leave_range :
    (∃ depth m, (Call.runSource (source 63)).perform (Eval.evaluate depth) withBuiltins.2
        (fun _ => .input) withBuiltins.1 = some (.ok .unit, m)
      ∧ m.store.get? withBuiltins.2 "x" = some (.number ⟨1, 9223372036854775808⟩))
    ∧ Decimal.fitsScale 9223372036854775808 = false
    ∧ Interpreter.runSource withBuiltins.2 (source 63) (fun _ => .input) withBuiltins.1 = none := by
  obtain ⟨m, n, hrun, hnumber⟩ := exists_run (fun _ => .input) 63
  have hpower : (2 : Int) ^ 63 = 9223372036854775808 := by norm_num
  rw [hpower] at hnumber
  exact ⟨⟨n, m, hrun n le_rfl, hnumber⟩, by decide,
    bounded_eq_none (fun _ => .input) le_rfl Interpreter.depthLimit⟩

end Squares

end QLisp
