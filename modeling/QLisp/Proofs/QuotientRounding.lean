import Mathlib
import QLisp.Proofs.DecimalValue

/-!
# What a quotient is rounded to

`roundedQuotient` finds the scale of its answer by counting digits: first it puts enough zeros after
the dividend for the integer quotient to have more digits than are kept, then it counts how many of
them are too many. Here the scale is described by size instead: at it the exact quotient has
`quotientPrecision` digits before the point, and there is only one such scale (`HasPrecision`). The
answer is the exact quotient at that scale, rounded to an integer with a half away from zero. The
carry to a power of ten needs no case of its own.

`exists_quotient` is the statement for decimals with their signs and scales.
-/

set_option autoImplicit false

namespace QLisp.Decimal

/-! ## Digits and size -/

/-- A number is less than the power of ten with as many zeros as it has digits. -/
theorem lt_pow10_digitCount (n : ℕ) : n < pow10 (digitCount n) :=
  (digitCount_le_iff (digitCount_pos n)).1 le_rfl

/-- A number with more digits than a power of ten has zeros is not less. -/
theorem pow10_le_of_lt_digitCount {n k : ℕ} (hk : 0 < k) (h : k < digitCount n) : pow10 k ≤ n := by
  by_contra hlt
  have hle := (digitCount_le_iff hk).2 (not_le.1 hlt)
  omega

/-- Powers of ten are in the order of their exponents. -/
theorem pow10_le_iff {j k : ℕ} : pow10 j ≤ pow10 k ↔ j ≤ k :=
  Nat.pow_le_pow_iff_right (by decide)

/-- At the scale `e` the number `x` has as many digits before the point as `count` says. -/
def HasPrecision (count : ℕ) (x : ℚ) (e : ℤ) : Prop :=
  (10 : ℚ) ^ (count - 1) ≤ x * (10 : ℚ) ^ e ∧ x * (10 : ℚ) ^ e < (10 : ℚ) ^ count

namespace HasPrecision

variable {count : ℕ} {x : ℚ} {e e' : ℤ}

/-- What has some precision is positive. -/
theorem pos (h : HasPrecision count x e) : 0 < x := by
  have hpow : (0 : ℚ) < (10 : ℚ) ^ e := zpow_pos (by norm_num) e
  have hscaled : 0 < x * (10 : ℚ) ^ e := lt_of_lt_of_le (by positivity) h.1
  exact pos_of_mul_pos_left hscaled hpow.le

/-- At a larger scale there is at least one digit more. -/
theorem le (h : HasPrecision count x e) (h' : HasPrecision count x e') : e' ≤ e := by
  by_contra hless
  have hstep : (10 : ℚ) ^ count ≤ (10 : ℚ) ^ (count - 1) * 10 := by
    rw [← pow_succ]
    exact pow_le_pow_right₀ (by norm_num) (by omega)
  have hmore : (10 : ℚ) ^ (e + 1) ≤ (10 : ℚ) ^ e' := zpow_le_zpow_right₀ (by norm_num) (by omega)
  have htoo : (10 : ℚ) ^ count ≤ x * (10 : ℚ) ^ e' := by
    calc (10 : ℚ) ^ count ≤ (10 : ℚ) ^ (count - 1) * 10 := hstep
      _ ≤ x * (10 : ℚ) ^ e * 10 := by linarith [h.1]
      _ = x * (10 : ℚ) ^ (e + 1) := by rw [zpow_add_one₀ (by norm_num), mul_assoc]
      _ ≤ x * (10 : ℚ) ^ e' := mul_le_mul_of_nonneg_left hmore h.pos.le
  exact absurd h'.2 (not_lt.2 htoo)

/-- There is one scale at which a number has a given precision. -/
theorem unique (h : HasPrecision count x e) (h' : HasPrecision count x e') : e' = e :=
  le_antisymm (h.le h') (h'.le h)

end HasPrecision

/-! ## Quotients of integers -/

/-- Rounding half up adds a half and rounds down. -/
theorem roundHalfUp_eq_floor (n : ℕ) {d : ℕ} (hd : 0 < d) :
    (roundHalfUp n d : ℤ) = ⌊(n : ℚ) / d + 1 / 2⌋ := by
  have hdpos : (0 : ℚ) < d := Nat.cast_pos.2 hd
  have hdivmod : (d : ℚ) * (n / d : ℕ) + (n % d : ℕ) = n := by exact_mod_cast Nat.div_add_mod n d
  have hquotient : (n : ℚ) / d = (n / d : ℕ) + (n % d : ℕ) / d := by
    rw [← hdivmod, add_div, mul_div_cancel_left₀ _ hdpos.ne']
  have hmod : ((n % d : ℕ) : ℚ) / d < 1 := by
    rw [div_lt_one hdpos]
    exact_mod_cast Nat.mod_lt n hd
  have hnonneg : (0 : ℚ) ≤ (n % d : ℕ) / d := by positivity
  symm
  rw [Int.floor_eq_iff, hquotient]
  unfold roundHalfUp
  split
  · next hup =>
    have hhalf : (1 : ℚ) / 2 ≤ (n % d : ℕ) / d := by
      rw [div_le_div_iff₀ (by norm_num) hdpos, one_mul]
      exact_mod_cast hup
    rw [Int.cast_natCast, Nat.cast_add_one]
    constructor <;> linarith
  · next hdown =>
    have hhalf : ((n % d : ℕ) : ℚ) / d < 1 / 2 := by
      rw [div_lt_div_iff₀ hdpos (by norm_num), one_mul]
      exact_mod_cast not_le.1 hdown
    rw [Int.cast_natCast]
    constructor <;> linarith

/-- Enough zeros are put after the dividend for the integer quotient to have more digits than are
kept. -/
theorem pow10_le_scaled_div {num den : ℕ} (hnum : 0 < num) (hden : 0 < den) :
    pow10 quotientPrecision
      ≤ num * pow10 (quotientPrecision + 1 + digitCount den - digitCount num) / den := by
  have hcount := digitCount_pos num
  have hfirst : pow10 (digitCount num - 1) ≤ num := by
    by_cases hone : digitCount num = 1
    · rw [hone]
      exact hnum
    · exact pow10_le_of_lt_digitCount (by omega) (by omega)
  rw [Nat.le_div_iff_mul_le hden]
  calc pow10 quotientPrecision * den
      ≤ pow10 quotientPrecision * pow10 (digitCount den) :=
        Nat.mul_le_mul_left _ (lt_pow10_digitCount den).le
    _ = pow10 (quotientPrecision + digitCount den) := (pow10_add _ _).symm
    _ ≤ pow10 (digitCount num - 1
          + (quotientPrecision + 1 + digitCount den - digitCount num)) :=
        pow10_le_iff.2 (by omega)
    _ = pow10 (digitCount num - 1)
          * pow10 (quotientPrecision + 1 + digitCount den - digitCount num) := pow10_add _ _
    _ ≤ num * pow10 (quotientPrecision + 1 + digitCount den - digitCount num) :=
        Nat.mul_le_mul_right _ hfirst

/-- A quotient of integers has the precision that is kept after as many digits are dropped as its
integer part has too many. -/
theorem hasPrecision_drop {scaled den : ℕ} (hden : 0 < den)
    (h : pow10 quotientPrecision ≤ scaled / den) :
    HasPrecision quotientPrecision ((scaled : ℚ) / den)
      (-((digitCount (scaled / den) - quotientPrecision : ℕ) : ℤ)) := by
  have hdenpos : (0 : ℚ) < den := Nat.cast_pos.2 hden
  have hcount : quotientPrecision < digitCount (scaled / den) := by
    by_contra hle
    exact absurd h (not_le.2 ((digitCount_le_iff (by decide)).1 (not_lt.1 hle)))
  generalize hdrop : digitCount (scaled / den) - quotientPrecision = drop
  have hlow : pow10 (quotientPrecision - 1 + drop) * den ≤ scaled := by
    rw [← Nat.le_div_iff_mul_le hden]
    exact pow10_le_of_lt_digitCount (by simp only [quotientPrecision]; omega)
      (by simp only [quotientPrecision] at *; omega)
  -- The size of the integer part bounds the exact quotient, whose remainder adds less than one.
  have hhigh : scaled < pow10 (quotientPrecision + drop) * den := by
    rw [← Nat.div_lt_iff_lt_mul hden]
    have hdigits : digitCount (scaled / den) = quotientPrecision + drop := by omega
    rw [← hdigits]
    exact lt_pow10_digitCount _
  have hpow : (0 : ℚ) < (10 : ℚ) ^ drop := by positivity
  rw [HasPrecision, zpow_neg, zpow_natCast, ← div_eq_mul_inv]
  constructor
  · rw [le_div_iff₀ hpow, le_div_iff₀ hdenpos, ← pow_add]
    exact_mod_cast hlow
  · rw [div_lt_iff₀ hpow, div_lt_iff₀ hdenpos, ← pow_add]
    exact_mod_cast hhigh

/-- The quotient of two positive integers is rounded at the scale that gives it the precision to be
kept. -/
theorem roundedQuotient_spec {num den : ℕ} (hnum : 0 < num) (hden : 0 < den) :
    HasPrecision quotientPrecision ((num : ℚ) / den) (roundedQuotient num den).2 ∧
      ((roundedQuotient num den).1 : ℤ)
        = ⌊(num : ℚ) / den * (10 : ℚ) ^ (roundedQuotient num den).2 + 1 / 2⌋ := by
  have hlong := pow10_le_scaled_div hnum hden
  have hprecision := hasPrecision_drop hden hlong
  simp only [roundedQuotient]
  generalize hshift : quotientPrecision + 1 + digitCount den - digitCount num = shift at *
  generalize hdrop : digitCount (num * pow10 shift / den) - quotientPrecision = drop at *
  -- Digits are added and then dropped, and only the difference of the two counts shows.
  have hscaled : ((num * pow10 shift : ℕ) : ℚ) / den * (10 : ℚ) ^ (-(drop : ℤ))
      = (num : ℚ) / den * (10 : ℚ) ^ ((shift : ℤ) - drop) := by
    rw [Nat.cast_mul, cast_pow10, sub_eq_add_neg, zpow_add₀ (by norm_num)]
    ring
  refine ⟨?_, ?_⟩
  · rw [HasPrecision, hscaled] at hprecision
    exact hprecision
  · rw [roundHalfUp_eq_floor _ (Nat.mul_pos hden (pow10_pos drop)), ← hscaled, zpow_neg,
      ← cast_pow10, Nat.cast_mul den, div_mul_eq_div_div, div_eq_mul_inv (_ / (den : ℚ))]

/-! ## Quotients of decimals -/

/-- The preferred scale is the difference of the scales, unless that is negative. -/
theorem preferredScale_eq_max (a b : Decimal) : preferredScale a b = max (a.scale - b.scale) 0 := by
  unfold preferredScale
  split <;> omega

/-- The size of a quotient of decimals is that of the quotient of their digits, moved by the
difference of the scales. -/
theorem abs_value_div (a b : Decimal) (places : ℤ) :
    |a.value / b.value| * (10 : ℚ) ^ (places + a.scale - b.scale)
      = (a.digits.natAbs : ℚ) / b.digits.natAbs * (10 : ℚ) ^ places := by
  have hpow (s : ℤ) : |(10 : ℚ) ^ s| = (10 : ℚ) ^ s := abs_of_pos (zpow_pos (by norm_num) s)
  have hsplit : (10 : ℚ) ^ (places + a.scale - b.scale)
      = (10 : ℚ) ^ places * ((10 : ℚ) ^ (-b.scale) / (10 : ℚ) ^ (-a.scale)) := by
    rw [← zpow_sub₀ (by norm_num), ← zpow_add₀ (by norm_num)]
    congr 1
    omega
  have ha : (10 : ℚ) ^ (-a.scale) ≠ 0 := zpow_ne_zero _ (by norm_num)
  have hb : (10 : ℚ) ^ (-b.scale) ≠ 0 := zpow_ne_zero _ (by norm_num)
  rw [hsplit, abs_div, value, value, abs_mul, abs_mul, hpow, hpow, Nat.cast_natAbs, Nat.cast_natAbs,
    Int.cast_abs, Int.cast_abs]
  field_simp

/-- A number with a sign, as a rational number. -/
theorem cast_withSignOf {sign : ℤ} (h : sign ≠ 0) (n : ℕ) :
    (withSignOf sign n : ℚ) = (SignType.sign sign : ℚ) * n := by
  unfold withSignOf
  split
  · next hneg => simp [sign_neg hneg]
  · next hnonneg =>
    have hpos : 0 < sign := by omega
    simp [sign_pos hpos]

/-- The sign of a quotient is that of the product of the digits. -/
theorem sign_value_div (a b : Decimal) :
    SignType.sign (a.value / b.value) = SignType.sign (a.digits * b.digits) := by
  have hvalue (d : Decimal) : SignType.sign d.value = SignType.sign d.digits := by
    have hpow : (0 : ℚ) < (10 : ℚ) ^ (-d.scale) := zpow_pos (by norm_num) _
    rw [value, sign_mul, sign_pos hpow, mul_one, sign_intCast]
  have hinv (x : ℚ) : SignType.sign x⁻¹ = SignType.sign x := by
    simp only [sign_apply, inv_pos, inv_lt_zero]
  rw [div_eq_mul_inv, sign_mul, hinv, hvalue, hvalue, sign_mul]

/-- The sign stands before the first factor. -/
theorem withSignOf_mul (sign : ℤ) (n k : ℕ) : withSignOf sign (n * k) = withSignOf sign n * k := by
  unfold withSignOf
  split <;> push_cast <;> ring

/-- The sign does not matter for divisibility. -/
theorem dvd_withSignOf_iff (sign : ℤ) (n k : ℕ) : (k : ℤ) ∣ withSignOf sign n ↔ k ∣ n := by
  unfold withSignOf
  split
  · rw [dvd_neg, Int.natCast_dvd_natCast]
  · rw [Int.natCast_dvd_natCast]

/-- A quotient with the two parts of its rounded digits named. -/
theorem quotient_eq_stripped (a b : Decimal) :
    quotient a b =
      let rounded := roundedQuotient a.digits.natAbs b.digits.natAbs
      withoutNegativeScale (stripped (a.digits * b.digits) rounded.1
        (rounded.2 + a.scale - b.scale) (preferredScale a b)) := by
  unfold quotient
  generalize roundedQuotient a.digits.natAbs b.digits.natAbs = rounded
  rfl

section Stripped

variable (sign : ℤ) (n : ℕ) {scale preferred : ℤ}

/-- Dropping zeros at the end leaves the value as it is. -/
theorem value_stripped :
    (stripped sign n scale preferred).value = value ⟨withSignOf sign n, scale⟩ := by
  obtain ⟨hdigits, hleft⟩ := dropZeros_eq (scale - preferred).toNat n
  simp only [stripped]
  generalize hr : dropZeros (scale - preferred).toNat n = r at *
  rw [← value_append_zeros _ _ ((scale - preferred).toNat - r.2), ← withSignOf_mul, hdigits]
  congr 2
  omega

/-- With more fraction digits than are preferred, zeros are dropped until there are as many as
preferred, or until the last digit is not zero. -/
theorem stripped_of_lt (h : preferred < scale) :
    preferred ≤ (stripped sign n scale preferred).scale ∧
      ((stripped sign n scale preferred).scale = preferred ∨
        ¬ (10 : ℤ) ∣ (stripped sign n scale preferred).digits) := by
  have hstops := dropZeros_stops (scale - preferred).toNat n
  simp only [stripped]
  generalize dropZeros (scale - preferred).toNat n = r at *
  refine ⟨by omega, ?_⟩
  rcases hstops with hzero | hlast
  · left
    omega
  · right
    have hiff := dvd_withSignOf_iff sign r.1 10
    intro hdvd
    exact hlast (Nat.mod_eq_zero_of_dvd (hiff.1 hdvd))

/-- No zeros are dropped below the preferred scale. -/
theorem stripped_of_le (h : scale ≤ preferred) :
    (stripped sign n scale preferred).scale = scale := by
  obtain ⟨-, hleft⟩ := dropZeros_eq (scale - preferred).toNat n
  simp only [stripped]
  omega

end Stripped

/-- A scale that is not negative stays. -/
theorem withoutNegativeScale_of_nonneg {d : Decimal} (h : 0 ≤ d.scale) :
    withoutNegativeScale d = d :=
  if_neg (by omega)

/-- A negative scale becomes zero. -/
theorem scale_withoutNegativeScale (d : Decimal) :
    (withoutNegativeScale d).scale = max d.scale 0 := by
  unfold withoutNegativeScale
  split
  · show 0 = max d.scale 0
    omega
  · omega

/-- Zero divided by a number is zero at the preferred scale. -/
theorem divide?_of_zero {a b : Decimal} (hb : b.digits ≠ 0) (ha : a.digits = 0) :
    divide? a b = some ⟨0, max (a.scale - b.scale) 0⟩ := by
  simp [divide?, isZero, ha, hb, preferredScale_eq_max]

/-- The digits of a quotient before zeros are dropped are the exact quotient at a scale that gives
it the precision to be kept, rounded. -/
theorem exists_rounded {a b : Decimal} (ha : a.digits ≠ 0) (hb : b.digits ≠ 0) :
    ∃ (n : ℕ) (e : ℤ), HasPrecision 34 |a.value / b.value| e ∧
      (n : ℤ) = ⌊|a.value / b.value| * (10 : ℚ) ^ e + 1 / 2⌋ ∧
      divide? a b = some
        (withoutNegativeScale (stripped (a.digits * b.digits) n e (preferredScale a b))) := by
  obtain ⟨hprecision, hrounded⟩ :=
    roundedQuotient_spec (Int.natAbs_pos.2 ha) (Int.natAbs_pos.2 hb)
  rw [HasPrecision, ← abs_value_div a b] at hprecision
  rw [← abs_value_div a b] at hrounded
  refine ⟨_, _, hprecision, hrounded, ?_⟩
  simp only [divide?, isZero, beq_iff_eq, ha, hb, if_false]
  rw [quotient_eq_stripped]

/-- The quotient of two decimals other than zero has the value of the exact quotient, rounded with a
half away from zero at the one scale that gives it 34 digits before the point. If that scale is
larger than the preferred one, the quotient is written with as few fraction digits as its value
allows, though not with fewer than preferred; otherwise it keeps that scale. -/
theorem exists_quotient {a b : Decimal} (ha : a.digits ≠ 0) (hb : b.digits ≠ 0) {e : ℤ}
    (he : HasPrecision 34 |a.value / b.value| e) :
    ∃ q, divide? a b = some q ∧
      q.value = (SignType.sign (a.value / b.value) : ℚ)
        * ⌊|a.value / b.value| * (10 : ℚ) ^ e + 1 / 2⌋ * (10 : ℚ) ^ (-e) ∧
      if max (a.scale - b.scale) 0 < e then
        IsLeast {s : ℤ | max (a.scale - b.scale) 0 ≤ s ∧ ∃ n : ℤ, q.value * (10 : ℚ) ^ s = n}
          q.scale
      else q.scale = max e 0 := by
  obtain ⟨n, e', hprecision, hrounded, hquotient⟩ := exists_rounded ha hb
  obtain rfl := hprecision.unique he
  have hsign : a.digits * b.digits ≠ 0 := mul_ne_zero ha hb
  refine ⟨_, hquotient, ?_, ?_⟩
  · rw [value_withoutNegativeScale, value_stripped, value, cast_withSignOf hsign, sign_value_div,
      ← hrounded, Int.cast_natCast]
  · rw [preferredScale_eq_max]
    split
    · next hlt =>
      obtain ⟨hle, hlast⟩ := stripped_of_lt (a.digits * b.digits) n hlt
      rw [withoutNegativeScale_of_nonneg (le_trans (le_max_right _ _) hle)]
      exact scale_isLeast hle hlast
    · next hge =>
      rw [scale_withoutNegativeScale, stripped_of_le _ _ (not_lt.1 hge)]

/-- No quotient has a negative scale. -/
theorem scale_nonneg_of_divide? {a b q : Decimal} (h : divide? a b = some q) : 0 ≤ q.scale := by
  by_cases hb : b.digits = 0
  · rw [(divide?_eq_none_iff a b).2 hb] at h
    cases h
  by_cases ha : a.digits = 0
  · rw [divide?_of_zero hb ha] at h
    obtain rfl := Option.some.inj h
    exact le_max_right _ _
  · obtain ⟨n, e, -, -, hquotient⟩ := exists_rounded ha hb
    rw [hquotient] at h
    obtain rfl := Option.some.inj h
    rw [scale_withoutNegativeScale]
    exact le_max_right _ _

end QLisp.Decimal
