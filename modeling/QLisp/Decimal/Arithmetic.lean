import QLisp.Decimal.Basic

/-!
# Exact arithmetic on decimals

Sum, difference and product have the exact value. The scale of a result follows these rules.

* A sum has the larger scale of the two terms, except that a term of value zero widens the other
  one by at most fifteen fraction digits.
* A difference has the larger scale.
* A product adds the scales, except that a factor that is written as one (with at most 38 fraction
  digits) leaves the other factor in its normal form, without trailing zeros.
-/

set_option autoImplicit false

namespace QLisp.Decimal

/-- The most fraction digits that adding a zero contributes. -/
def zeroTermLimit : Nat := 15

/-- The widest scale at which a factor one is recognised. -/
def unitScaleLimit : Int := 38

/-- A decimal with as many more fraction digits as a zero of scale `s` adds to it. -/
def widenedByZero (d : Decimal) (s : Int) : Decimal :=
  d.raise (Nat.min (s - d.scale).toNat zeroTermLimit)

/-- The exact sum. -/
def add (a b : Decimal) : Decimal :=
  if b.isZero then a.widenedByZero b.scale
  else if a.isZero then b.widenedByZero a.scale
  else ⟨a.digitsAt (commonScale a b) + b.digitsAt (commonScale a b), commonScale a b⟩

/-- The exact difference. -/
def sub (a b : Decimal) : Decimal :=
  ⟨a.digitsAt (commonScale a b) - b.digitsAt (commonScale a b), commonScale a b⟩

/-- A decimal of value one whose scale lies between zero and `unitScaleLimit`. -/
def isUnit (d : Decimal) : Bool :=
  0 ≤ d.scale && d.scale ≤ unitScaleLimit && d.digits == pow10 d.scale.toNat

/-- The same value without trailing zeros; the scale may become negative, and zero has scale
zero. -/
def normalize (d : Decimal) : Decimal :=
  if d.isZero then ⟨0, 0⟩
  else
    let limit := digitCount d.digits.natAbs
    let (n, left) := dropZeros limit d.digits.natAbs
    ⟨withSignOf d.digits n, d.scale - ((limit : Int) - left)⟩

/-- The exact product. -/
def mul (a b : Decimal) : Decimal :=
  if a.isUnit then b.normalize
  else if b.isUnit then a.normalize
  else ⟨a.digits * b.digits, a.scale + b.scale⟩

end QLisp.Decimal
