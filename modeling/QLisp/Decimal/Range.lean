import QLisp.Decimal.Arithmetic
import QLisp.Decimal.Quotient

/-!
# The range of scales

Scales are kept in signed words of 64 bits. A scale that is computed outside of this range cannot be
kept, and there is no result then. Sums and differences take over a scale of a term, so only
products and quotients can leave the range: a product adds scales or takes trailing zeros away, and
a quotient subtracts scales twice, for the preferred scale and for its own.
-/

set_option autoImplicit false

namespace QLisp.Decimal

/-- The least scale that can be kept. -/
def minScale : Int := -9223372036854775808

/-- The greatest scale that can be kept. -/
def maxScale : Int := 9223372036854775807

/-- Whether a scale can be kept. -/
def fitsScale (s : Int) : Bool :=
  minScale ≤ s && s ≤ maxScale

/-- The scale of a product. -/
def productScale (a b : Decimal) : Int :=
  if a.isUnit then b.normalize.scale
  else if b.isUnit then a.normalize.scale
  else a.scale + b.scale

/-- Whether the scale of a product can be kept. -/
def productFits (a b : Decimal) : Bool :=
  fitsScale (productScale a b)

/-- Whether the scales that are computed for a quotient can be kept: the difference of the scales
and, unless the dividend is zero, the scale of the rounded quotient, which is computed in two
steps. -/
def quotientFits (a b : Decimal) : Bool :=
  fitsScale (a.scale - b.scale) &&
    (a.isZero ||
      let places := (roundedQuotient a.digits.natAbs b.digits.natAbs).2
      fitsScale (places + a.scale) && fitsScale (places + a.scale - b.scale))

/-! ## Steps of arithmetic -/

/-- Why a step of arithmetic has no result. -/
inductive Fault where
  | zeroDivisor
  /-- A scale cannot be kept. -/
  | outOfRange
deriving DecidableEq

/-- A scale that has been computed, if it can be kept. -/
def keep (s : Int) : Except Fault Int :=
  if fitsScale s then .ok s else .error .outOfRange

/-- The product of two decimals, if its scale can be kept. -/
def multiplyInRange (a b : Decimal) : Except Fault Decimal := do
  let _ ← keep (productScale a b)
  return a.mul b

/-- The quotient of two decimals, where each scale on the way has to be kept: the difference of the
scales, and the scale of the rounded quotient before and after that of the divisor is taken away. -/
def divideInRange (a b : Decimal) : Except Fault Decimal :=
  if b.isZero then .error .zeroDivisor
  else do
    let preferred := max (← keep (a.scale - b.scale)) 0
    if a.isZero then
      return ⟨0, preferred⟩
    else
      let (rounded, places) := roundedQuotient a.digits.natAbs b.digits.natAbs
      let raised ← keep (places + a.scale)
      let scale ← keep (raised - b.scale)
      return withoutNegativeScale (stripped (a.digits * b.digits) rounded scale preferred)

end QLisp.Decimal
