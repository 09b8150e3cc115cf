import QLisp.Decimal.Basic

/-!
# Quotients of decimals

A quotient is rounded to 34 significant digits, a half away from zero, and is then written with as
few fraction digits as its value allows, but not with fewer than the preferred scale: that of the
dividend less that of the divisor, and never below zero.
-/

set_option autoImplicit false

namespace QLisp.Decimal

/-- The significant digits that a quotient keeps. -/
def quotientPrecision : Nat := 34

/-- The least scale with which a quotient is written. -/
def preferredScale (a b : Decimal) : Int :=
  if a.scale ≤ b.scale then 0 else a.scale - b.scale

/-- The natural number nearest to `n / d`; a half goes up. -/
def roundHalfUp (n d : Nat) : Nat :=
  if d ≤ n % d * 2 then n / d + 1 else n / d

/-- The quotient of two positive integers rounded to `quotientPrecision` significant digits, as an
integer and its scale. -/
def roundedQuotient (num den : Nat) : Nat × Int :=
  let shift := quotientPrecision + 1 + digitCount den - digitCount num
  let scaled := num * pow10 shift
  let drop := digitCount (scaled / den) - quotientPrecision
  (roundHalfUp scaled (den * pow10 drop), (shift : Int) - drop)

/-- A decimal of scale at least zero with the given value: a negative scale becomes trailing
zeros. -/
def withoutNegativeScale (d : Decimal) : Decimal :=
  if d.scale < 0 then ⟨d.digits * pow10 (-d.scale).toNat, 0⟩ else d

/-- The decimal with the digits of `n` and the given sign and scale, less the zeros at its end that
stand after the fraction digits that are preferred. -/
def stripped (sign : Int) (n : Nat) (scale preferred : Int) : Decimal :=
  let limit := (scale - preferred).toNat
  let (digits, left) := dropZeros limit n
  ⟨withSignOf sign digits, scale - ((limit : Int) - left)⟩

/-- The quotient of two decimals other than zero. -/
def quotient (a b : Decimal) : Decimal :=
  let (rounded, places) := roundedQuotient a.digits.natAbs b.digits.natAbs
  withoutNegativeScale
    (stripped (a.digits * b.digits) rounded (places + a.scale - b.scale) (preferredScale a b))

/-- The quotient of two decimals with scales of any size, or nothing when the divisor is zero. -/
def divide? (a b : Decimal) : Option Decimal :=
  if b.isZero then none
  else if a.isZero then some ⟨0, preferredScale a b⟩
  else some (quotient a b)

/-- Only a zero divisor has no quotient. -/
theorem divide?_eq_none_iff (a b : Decimal) : divide? a b = none ↔ b.digits = 0 := by
  by_cases hb : b.digits = 0
  · simp [divide?, isZero, hb]
  · by_cases ha : a.digits = 0 <;> simp [divide?, isZero, hb, ha]

end QLisp.Decimal
