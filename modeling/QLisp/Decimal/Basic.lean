import QLisp.Decimal.Digits

/-!
# Decimal numbers

A decimal is an integer together with a scale: `⟨n, s⟩` stands for `n · 10 ^ (-s)`. Neither part is
bounded. The scale is part of the number, since it decides how many fraction digits are written,
but order and equality look at the value alone: `2` and `2.0` are different decimals with one value.
-/

set_option autoImplicit false

namespace QLisp

/-- The number `digits · 10 ^ (-scale)`. -/
structure Decimal where
  digits : Int
  scale : Int
deriving DecidableEq

namespace Decimal

/-- An integer as a decimal without fraction digits. -/
def ofInt (n : Int) : Decimal :=
  ⟨n, 0⟩

/-- A decimal has the value zero exactly when its digits are zero, whatever its scale. -/
def isZero (d : Decimal) : Bool :=
  d.digits == 0

/-- The same value with `k` more fraction digits. -/
def raise (d : Decimal) (k : Nat) : Decimal :=
  ⟨d.digits * pow10 k, d.scale + k⟩

/-- An integer with `k` zeros after it; nothing is computed for zero, whose `k` may be huge. -/
def shift (n : Int) (k : Nat) : Int :=
  if n = 0 then 0 else n * pow10 k

/-- Shifting digits to the left multiplies by a power of ten. -/
theorem shift_eq (n : Int) (k : Nat) : shift n k = n * pow10 k := by
  by_cases h : n = 0 <;> simp [shift, h]

/-- The digits of a decimal when it is written with scale `s`, for an `s` not below its own. -/
def digitsAt (d : Decimal) (s : Int) : Int :=
  shift d.digits (s - d.scale).toNat

/-- The larger of two scales, at which both decimals can be written. -/
def commonScale (a b : Decimal) : Int :=
  if a.scale ≤ b.scale then b.scale else a.scale

/-! ## Order -/

/-- The order of two integers. -/
def order (m n : Int) : Ordering :=
  if m < n then .lt else if m = n then .eq else .gt

/-- A smaller number comes before a greater one. -/
theorem order_of_lt {m n : Int} (h : m < n) : order m n = .lt := by
  rw [order, if_pos h]

/-- A greater number comes after a smaller one. -/
theorem order_of_gt {m n : Int} (h : n < m) : order m n = .gt := by
  rw [order, if_neg (by omega), if_neg (by omega)]

/-- Numbers that change places change their order. -/
theorem swap_order (m n : Int) : (order m n).swap = order n m := by
  rcases Int.lt_trichotomy m n with h | h | h
  · simp [order_of_lt h, order_of_gt h]
  · simp [order, h]
  · simp [order_of_gt h, order_of_lt h]

/-- The order of `m` and of `n` with `k` zeros after it. Where the zeros alone are as many as the
digits of `m`, the sign of `n` decides. -/
def orderShifted (m n : Int) (k : Nat) : Ordering :=
  if n ≠ 0 ∧ digitCount m.natAbs ≤ k then order 0 n else order m (shift n k)

/-- The quick comparison is the comparison with the shifted number. -/
theorem orderShifted_eq (m n : Int) (k : Nat) : orderShifted m n k = order m (n * pow10 k) := by
  by_cases h : n ≠ 0 ∧ digitCount m.natAbs ≤ k
  · obtain ⟨hn, hk⟩ := h
    have hkpos : 0 < k := Nat.lt_of_lt_of_le (digitCount_pos _) hk
    have hsmall : m.natAbs < pow10 k := (digitCount_le_iff hkpos).1 hk
    have hpow : 0 < (pow10 k : Int) := Int.natCast_pos.2 (pow10_pos k)
    rw [orderShifted, if_pos ⟨hn, hk⟩]
    rcases Int.lt_trichotomy n 0 with hneg | hzero | hpos
    · have hbound : n * pow10 k ≤ -1 * pow10 k :=
        Int.mul_le_mul_of_nonneg_right (by omega) (Int.le_of_lt hpow)
      rw [order_of_gt hneg, order_of_gt (by omega)]
    · exact absurd hzero hn
    · have hbound : 1 * (pow10 k : Int) ≤ n * pow10 k :=
        Int.mul_le_mul_of_nonneg_right (by omega) (Int.le_of_lt hpow)
      rw [order_of_lt hpos, order_of_lt (by omega)]
  · rw [orderShifted, if_neg h, shift_eq]

/-- The order of the values of two decimals. -/
def orderValues (a b : Decimal) : Ordering :=
  if a.scale ≤ b.scale then (orderShifted b.digits a.digits (b.scale - a.scale).toNat).swap
  else orderShifted a.digits b.digits (a.scale - b.scale).toNat

/-- Values are in the order of the digits at a common scale. -/
theorem orderValues_eq (a b : Decimal) :
    orderValues a b = order (a.digitsAt (commonScale a b)) (b.digitsAt (commonScale a b)) := by
  by_cases h : a.scale ≤ b.scale
  · simp [orderValues, h, orderShifted_eq, swap_order, digitsAt, commonScale, shift_eq]
  · simp [orderValues, h, orderShifted_eq, digitsAt, commonScale, shift_eq]

/-- Equality of values. -/
def same (a b : Decimal) : Bool :=
  (orderValues a b).isEq

/-- Strict order of values. -/
def less (a b : Decimal) : Bool :=
  (orderValues a b).isLT

/-- Order of values. -/
def lessEq (a b : Decimal) : Bool :=
  (orderValues a b).isLE

/-- Numbers are the same if their digits at a common scale are. -/
theorem same_iff (a b : Decimal) :
    same a b = true ↔ a.digitsAt (commonScale a b) = b.digitsAt (commonScale a b) := by
  rw [same, orderValues_eq, order]
  split
  · simp; omega
  · split <;> simp [*]

/-- A number is less if its digits at a common scale are. -/
theorem less_iff (a b : Decimal) :
    less a b = true ↔ a.digitsAt (commonScale a b) < b.digitsAt (commonScale a b) := by
  rw [less, orderValues_eq, order]
  split
  · simp [*]
  · split <;> simp [*]

/-- A number is at most another one if its digits at a common scale are. -/
theorem lessEq_iff (a b : Decimal) :
    lessEq a b = true ↔ a.digitsAt (commonScale a b) ≤ b.digitsAt (commonScale a b) := by
  rw [lessEq, orderValues_eq, order]
  split
  · simp; omega
  · split
    · simp [*]
    · simp; omega

/-- The sign of an integer put before a natural number. -/
def withSignOf (sign : Int) (n : Nat) : Int :=
  if sign < 0 then -(n : Int) else n

end Decimal

end QLisp
