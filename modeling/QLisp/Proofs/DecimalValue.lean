import Mathlib
import QLisp.Decimal.Arithmetic
import QLisp.Decimal.Quotient

/-!
# The number that a decimal stands for

A decimal `⟨n, s⟩` stands for the rational number `n · 10 ^ (-s)`. Many decimals stand for one
number: more fraction digits, all of them zero, change the scale and not the number. `scale_isLeast`
says which of them is the shortest. Equality of decimals is equality of these numbers
(`same_iff_value_eq`), and a difference stands for the difference (`value_sub`).
-/

set_option autoImplicit false

namespace QLisp.Decimal

/-- The rational number that a decimal stands for. -/
def value (d : Decimal) : ℚ :=
  d.digits * (10 : ℚ) ^ (-d.scale)

/-- Powers of ten as rational numbers. -/
theorem cast_pow10 (k : ℕ) : ((pow10 k : ℕ) : ℚ) = (10 : ℚ) ^ (k : ℤ) := by
  rw [zpow_natCast]
  exact Nat.cast_pow 10 k

/-- The value of a decimal with its point moved. -/
theorem value_mul_zpow (d : Decimal) (s : ℤ) :
    d.value * (10 : ℚ) ^ s = d.digits * (10 : ℚ) ^ (s - d.scale) := by
  rw [value, mul_assoc, ← zpow_add₀ (by norm_num), neg_add_eq_sub]

/-- Zeros at the end of the digits and as many more fraction digits stand for the same number. -/
theorem value_append_zeros (n s : ℤ) (k : ℕ) : value ⟨n * pow10 k, s + k⟩ = value ⟨n, s⟩ := by
  simp only [value, Int.cast_mul, Int.cast_natCast, cast_pow10]
  rw [mul_assoc, ← zpow_add₀ (by norm_num)]
  congr 2
  omega

/-- Writing out the zeros of a negative scale leaves the value as it is. -/
theorem value_withoutNegativeScale (d : Decimal) : (withoutNegativeScale d).value = d.value := by
  unfold withoutNegativeScale
  split
  · next hneg =>
    have hscale : d.scale + ((-d.scale).toNat : ℤ) = 0 := by omega
    have hzeros := value_append_zeros d.digits d.scale (-d.scale).toNat
    rw [hscale] at hzeros
    exact hzeros
  · rfl

/-- A decimal whose last digit is not zero cannot be written with a smaller scale. -/
theorem scale_le_of_integer {d : Decimal} (hlast : ¬ (10 : ℤ) ∣ d.digits) {s n : ℤ}
    (h : d.value * (10 : ℚ) ^ s = n) : d.scale ≤ s := by
  by_contra hless
  refine hlast ⟨n * pow10 (d.scale - s - 1).toNat, ?_⟩
  have hexp : ((d.scale - s - 1).toNat : ℤ) = d.scale - s - 1 := by omega
  have hdigits : (d.digits : ℚ) = 10 * (n * (10 : ℚ) ^ (d.scale - s - 1)) := by
    rw [← h, value_mul_zpow, mul_assoc, ← zpow_add₀ (by norm_num), mul_comm (10 : ℚ), mul_assoc,
      ← zpow_add_one₀ (by norm_num)]
    have hsum : s - d.scale + (d.scale - s - 1) + 1 = 0 := by omega
    rw [hsum, zpow_zero, mul_one]
  rw [← hexp, ← cast_pow10] at hdigits
  exact_mod_cast hdigits

/-- The shortest decimal of its value, among those with at least `preferred` fraction digits, has
`preferred` of them or does not end with a zero. -/
theorem scale_isLeast {d : Decimal} {preferred : ℤ} (hle : preferred ≤ d.scale)
    (hlast : d.scale = preferred ∨ ¬ (10 : ℤ) ∣ d.digits) :
    IsLeast {s : ℤ | preferred ≤ s ∧ ∃ n : ℤ, d.value * (10 : ℚ) ^ s = n} d.scale := by
  refine ⟨⟨hle, d.digits, ?_⟩, ?_⟩
  · rw [value_mul_zpow, sub_self, zpow_zero, mul_one]
  · rintro s ⟨hs, n, hn⟩
    rcases hlast with hscale | hlast
    · rw [hscale]
      exact hs
    · exact scale_le_of_integer hlast hn

/-! ## Equality and differences -/

/-- The value of an integer is the integer. -/
theorem value_ofInt (n : ℤ) : (ofInt n).value = n := by
  simp [value, ofInt]

/-- The digits at a scale are the value with its point moved by the scale. -/
theorem digitsAt_eq (d : Decimal) {s : ℤ} (h : d.scale ≤ s) :
    (d.digitsAt s : ℚ) = d.value * (10 : ℚ) ^ s := by
  have hexp : ((s - d.scale).toNat : ℤ) = s - d.scale := by omega
  rw [digitsAt, shift_eq, Int.cast_mul, Int.cast_natCast, cast_pow10, hexp, value_mul_zpow]

/-- Both decimals can be written at their common scale. -/
theorem scale_le_commonScale (a b : Decimal) :
    a.scale ≤ commonScale a b ∧ b.scale ≤ commonScale a b := by
  unfold commonScale
  split <;> omega

/-- Decimals are the same exactly if their values are. -/
theorem same_iff_value_eq (a b : Decimal) : a.same b = true ↔ a.value = b.value := by
  obtain ⟨ha, hb⟩ := scale_le_commonScale a b
  have hpow : (10 : ℚ) ^ commonScale a b ≠ 0 := zpow_ne_zero _ (by norm_num)
  rw [same_iff, ← @Int.cast_inj ℚ, digitsAt_eq a ha, digitsAt_eq b hb]
  exact mul_left_inj' hpow

/-- Comparing decimals decides whether their values are equal. -/
theorem same_eq_decide (a b : Decimal) : a.same b = decide (a.value = b.value) := by
  rw [Bool.eq_iff_iff, same_iff_value_eq, decide_eq_true_iff]

/-- The difference of two decimals has the difference of their values. -/
theorem value_sub (a b : Decimal) : (a.sub b).value = a.value - b.value := by
  obtain ⟨ha, hb⟩ := scale_le_commonScale a b
  have hpow : (10 : ℚ) ^ commonScale a b ≠ 0 := zpow_ne_zero _ (by norm_num)
  rw [sub, value, Int.cast_sub, digitsAt_eq a ha, digitsAt_eq b hb, ← sub_mul, zpow_neg,
    mul_assoc, mul_inv_cancel₀ hpow, mul_one]

/-- The sum of two integers is an integer. -/
theorem add_ofInt (m n : ℤ) : (ofInt m).add (ofInt n) = ofInt (m + n) := by
  have hwiden (k : ℤ) : (ofInt k).widenedByZero 0 = ofInt k := by
    simp [widenedByZero, ofInt, raise, pow10_zero]
  unfold add
  split
  · next hzero =>
    have hn : n = 0 := by simpa [isZero, ofInt] using hzero
    rw [hn, add_zero]
    exact hwiden m
  · split
    · next hzero =>
      have hm : m = 0 := by simpa [isZero, ofInt] using hzero
      rw [hm, zero_add]
      exact hwiden n
    · simp [ofInt, commonScale, digitsAt, shift_eq, pow10_zero]

end QLisp.Decimal
