import QLisp.Decimal.Basic

/-!
# Decimals as text

A decimal is written in plain positional notation, with exactly as many fraction digits as its
scale says and at least one digit before the point. A negative scale is written as trailing zeros.

The literals of a form are written differently where that takes many zeros: zero is a single digit,
and a number with many zeros next to its point is written with a power of ten.
-/

set_option autoImplicit false

namespace QLisp.Decimal

/-- The digits of a natural number with a point before the last `scale` of them; there is always a
digit before the point. -/
def positional (n scale : Nat) : List Char :=
  let digits := digitChars n
  let padded := List.replicate (scale + 1 - digits.length) '0' ++ digits
  padded.take (padded.length - scale) ++ '.' :: padded.drop (padded.length - scale)

/-- The characters of a decimal in positional notation. -/
def chars (d : Decimal) : List Char :=
  let sign := if d.digits < 0 then ['-'] else []
  if d.scale ≤ 0 then
    let zeros := if d.isZero then 0 else (-d.scale).toNat
    sign ++ digitChars d.digits.natAbs ++ List.replicate zeros '0'
  else
    sign ++ positional d.digits.natAbs d.scale.toNat

/-- A decimal in positional notation. -/
def render (d : Decimal) : String :=
  String.ofList d.chars

/-- The most zeros between the point of a literal and its first digit. -/
def mostLeadingZeros : Nat := 5

/-- The most zeros between the last digit of a literal and its point. -/
def mostTrailingZeros : Nat := 15

/-- The digits of a natural number with a point after the first one, if there are more. -/
def scientific (n : Nat) : List Char :=
  match digitChars n with
  | first :: second :: rest => first :: '.' :: second :: rest
  | digits => digits

/-- A decimal as a literal. -/
def renderLiteral (d : Decimal) : String :=
  let n := d.digits.natAbs
  let sign := if d.digits < 0 then "-" else ""
  if d.isZero then "0"
  else if mostLeadingZeros < d.scale.toNat - digitCount n then
    sign ++ String.ofList (scientific n) ++ "E-" ++ (d.scale.toNat + 1 - digitCount n).repr
  else if mostTrailingZeros < (-d.scale).toNat then
    sign ++ String.ofList (digitChars n) ++ "E+" ++ (-d.scale).toNat.repr
  else d.render

/-- The decimal that is written with these digits before and after the point. -/
def ofParts (negative : Bool) (whole fraction : List Char) : Decimal :=
  let n : Int := valueOfChars (whole ++ fraction)
  ⟨if negative then -n else n, fraction.length⟩

/-- The decimal that a text without sign writes, if it is digits, or digits, a point and digits. -/
def unsignedOfChars? (negative : Bool) (cs : List Char) : Option Decimal :=
  let whole := cs.takeWhile Char.isDigit
  match whole, cs.dropWhile Char.isDigit with
  | [], _ => none
  | _, [] => some (ofParts negative whole [])
  | _, '.' :: fraction =>
    if fraction.all Char.isDigit && !fraction.isEmpty then some (ofParts negative whole fraction)
    else none
  | _, _ => none

/-- Reads a decimal in positional notation. -/
def read? (text : String) : Option Decimal :=
  match text.toList with
  | '-' :: cs => unsignedOfChars? true cs
  | cs => unsignedOfChars? false cs

end QLisp.Decimal
