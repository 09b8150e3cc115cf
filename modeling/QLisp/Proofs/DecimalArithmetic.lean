import QLisp.Proofs.QuotientRounding

/-!
# Sums, products and order by value

The scale of a sum or a product follows rules of its own: a term zero widens the other one, and a
factor one takes the zeros off the end of the other one. None of this shows in the numbers that the
decimals stand for: they are added and multiplied exactly (`value_add`, `value_mul`) and compared as
rational numbers (`less_iff_value_lt`, `lessEq_iff_value_le`).
-/

set_option autoImplicit false

namespace QLisp.Decimal

/-- A decimal is zero exactly if its value is. -/
theorem isZero_iff_value_eq_zero (d : Decimal) : d.isZero = true ↔ d.value = 0 := by
  have hpow : (10 : ℚ) ^ (-d.scale) ≠ 0 := zpow_ne_zero _ (by norm_num)
  rw [isZero, beq_iff_eq, value, mul_eq_zero_iff_right hpow, Int.cast_eq_zero]

/-- A greater scale with as many zeros more leaves the value as it is. -/
theorem value_raise (d : Decimal) (k : ℕ) : (d.raise k).value = d.value :=
  value_append_zeros d.digits d.scale k

/-- The sum of two decimals has the sum of their values. -/
theorem value_add (a b : Decimal) : (a.add b).value = a.value + b.value := by
  unfold add
  split
  · next hb =>
    rw [widenedByZero, value_raise, (isZero_iff_value_eq_zero b).1 hb, add_zero]
  · split
    · next ha =>
      rw [widenedByZero, value_raise, (isZero_iff_value_eq_zero a).1 ha, zero_add]
    · obtain ⟨ha, hb⟩ := scale_le_commonScale a b
      have hpow : (10 : ℚ) ^ commonScale a b ≠ 0 := zpow_ne_zero _ (by norm_num)
      rw [value, Int.cast_add, digitsAt_eq a ha, digitsAt_eq b hb, ← add_mul, zpow_neg, mul_assoc,
        mul_inv_cancel₀ hpow, mul_one]

/-- A number is its own amount with its own sign. -/
theorem withSignOf_natAbs (n : ℤ) : withSignOf n n.natAbs = n := by
  unfold withSignOf
  split <;> omega

/-- Dropping zeros at the end leaves the value as it is. -/
theorem value_normalize (d : Decimal) : d.normalize.value = d.value := by
  unfold normalize
  split
  · next hzero =>
    rw [(isZero_iff_value_eq_zero d).1 hzero]
    simp [value]
  · have hlimit : (d.scale - (d.scale - digitCount d.digits.natAbs)).toNat
        = digitCount d.digits.natAbs := by omega
    have hstripped := @value_stripped d.digits d.digits.natAbs d.scale
      (d.scale - digitCount d.digits.natAbs)
    rw [withSignOf_natAbs, stripped, hlimit] at hstripped
    exact hstripped

/-- What is recognised as one has the value one. -/
theorem value_of_isUnit {d : Decimal} (h : d.isUnit = true) : d.value = 1 := by
  simp only [isUnit, Bool.and_eq_true, decide_eq_true_eq, beq_iff_eq] at h
  obtain ⟨⟨hscale, -⟩, hdigits⟩ := h
  have hexp : (d.scale.toNat : ℤ) = d.scale := Int.toNat_of_nonneg hscale
  rw [value, hdigits, Int.cast_natCast, cast_pow10, hexp, zpow_neg]
  exact mul_inv_cancel₀ (zpow_ne_zero _ (by norm_num))

/-- The product of two decimals has the product of their values. -/
theorem value_mul (a b : Decimal) : (a.mul b).value = a.value * b.value := by
  unfold mul
  split
  · next ha => rw [value_normalize, value_of_isUnit ha, one_mul]
  · split
    · next hb => rw [value_normalize, value_of_isUnit hb, mul_one]
    · simp only [value, Int.cast_mul, neg_add]
      rw [zpow_add₀ (by norm_num)]
      ring

/-- A decimal is less than another one exactly if its value is. -/
theorem less_iff_value_lt (a b : Decimal) : a.less b = true ↔ a.value < b.value := by
  obtain ⟨ha, hb⟩ := scale_le_commonScale a b
  have hpow : (0 : ℚ) < 10 ^ commonScale a b := zpow_pos (by norm_num) _
  rw [less_iff, ← @Int.cast_lt ℚ, digitsAt_eq a ha, digitsAt_eq b hb]
  exact mul_lt_mul_iff_of_pos_right hpow

/-- A decimal is at most another one exactly if its value is. -/
theorem lessEq_iff_value_le (a b : Decimal) : a.lessEq b = true ↔ a.value ≤ b.value := by
  obtain ⟨ha, hb⟩ := scale_le_commonScale a b
  have hpow : (0 : ℚ) < 10 ^ commonScale a b := zpow_pos (by norm_num) _
  rw [lessEq_iff, ← @Int.cast_le ℚ, digitsAt_eq a ha, digitsAt_eq b hb]
  exact mul_le_mul_iff_of_pos_right hpow

end QLisp.Decimal
