import QLisp.Decimal.Range
import QLisp.Eval.Supervised

/-!
# Evaluation within the range of scales

Evaluation computes with scales of any size, but a scale has to be kept in 64 bits. So the
evaluation that is carried out breaks off where a builtin computes a scale outside of this range: it
has no answer then. Only `*` and `/` can do that.
-/

set_option autoImplicit false

namespace QLisp

namespace Primitive

/-- Whether all steps of a left fold keep their scales. A step that has no result is the last one,
and computes no scale. -/
def foldFits (fits : Decimal → Decimal → Bool) (step : Decimal → Decimal → Option Decimal)
    (acc : Decimal) : List Decimal → Bool
  | [] => true
  | n :: ns =>
    match step acc n with
    | none => true
    | some next => fits acc n && foldFits fits step next ns

/-- Whether a fold over arguments keeps its scales; nothing is computed unless all arguments are
numbers. -/
def argumentsFit (f : Builtin) (alone : Option Decimal) (fits : Decimal → Decimal → Bool)
    (step : Decimal → Decimal → Option Decimal) (args : List Value) : Bool :=
  match alone, forAll (expectNumber f) args with
  | some a, .ok [n] => foldFits fits step a [n]
  | _, .ok (n :: ns) => foldFits fits step n ns
  | _, _ => true

/-- Whether a builtin that is applied to arguments keeps its scales. -/
def scalesFit (args : List Value) : Builtin → Bool
  | .multiply => argumentsFit .multiply none Decimal.productFits (fun a b => some (a.mul b)) args
  | .divide => argumentsFit .divide (some (.ofInt 1)) Decimal.quotientFits Decimal.divide? args
  | _ => true

end Primitive

/-- Whether something happens without a scale that cannot be kept. -/
def Event.fits : Event → Bool
  | application _ (.builtin b) args => Primitive.scalesFit args b
  | _ => true

namespace Eval

/-- Applies a function, unless a scale cannot be kept. -/
def applyBounded (evaluate : Evaluator) (scope : Scope) (args : List Value) (function : Value) :
    Interp Value :=
  applySupervised Event.fits evaluate scope args function

/-- Evaluates a value in a scope, at most `depth` steps deep and as long as all scales can be
kept. -/
def bounded (depth : Nat) : Evaluator :=
  supervised Event.fits depth

end Eval

end QLisp
