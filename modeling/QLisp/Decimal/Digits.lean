/-!
# Decimal digits

The digits of natural numbers: how many there are, how they are written and read, and how the zeros
at the end are removed. A number is cut in halves rather than digit by digit, because numbers can
have hundreds of thousands of digits; each function comes with the plain description of what it
computes.
-/

set_option autoImplicit false

namespace QLisp.Decimal

/-- A power of ten. -/
def pow10 (k : Nat) : Nat :=
  Nat.pow 10 k

/-- The power of ten with exponent zero is one. -/
@[simp]
theorem pow10_zero : pow10 0 = 1 := rfl

/-- The next power of ten is ten times as large. -/
theorem pow10_succ (k : Nat) : pow10 (k + 1) = pow10 k * 10 := rfl

/-- Exponents add up where powers of ten are multiplied. -/
theorem pow10_add (j k : Nat) : pow10 (j + k) = pow10 j * pow10 k :=
  Nat.pow_add 10 j k

/-- Powers of ten are positive. -/
theorem pow10_pos (k : Nat) : 0 < pow10 k :=
  Nat.pow_pos (by decide)

/-- Powers of ten divide the greater ones. -/
theorem pow10_dvd_pow10 {j k : Nat} (h : j ≤ k) : pow10 j ∣ pow10 k :=
  Nat.pow_dvd_pow 10 h

/-- The numbers of digits at which numbers are cut: one, and from then on twice the number before.
-/
def width : Nat → Nat
  | 0 => 1
  | h + 1 => 2 * width h

/-- Widths are the powers of two. -/
theorem width_eq (h : Nat) : width h = Nat.pow 2 h := by
  induction h with
  | zero => rfl
  | succ h ih =>
    have hpow : Nat.pow 2 (h + 1) = Nat.pow 2 h * 2 := rfl
    rw [width, ih, hpow, Nat.mul_comm]

/-- There is a width above every number. -/
theorem lt_width (k : Nat) : k < width (k.log2 + 1) := by
  rw [width_eq]
  exact Nat.lt_log2_self

/-! ## Counting -/

/-- Whether a natural number other than zero has `count` digits. -/
def hasDigits (n count : Nat) : Bool :=
  0 < count && pow10 (count - 1) ≤ n && n < pow10 count

/-- The number of decimal digits of a natural number; zero has one digit. The number of its binary
digits leaves two candidates, which are tried first. -/
def digitCount (n : Nat) : Nat :=
  let guess := 30102999566 * n.log2 / 100000000000 + 1
  if hasDigits n guess then guess
  else if hasDigits n (guess + 1) then guess + 1
  else (Nat.toDigits 10 n).length

/-- The count of digits that is recognised is the length of the decimal notation. -/
theorem length_toDigits_of_hasDigits {n count : Nat} (h : hasDigits n count = true) :
    (Nat.toDigits 10 n).length = count := by
  simp only [hasDigits, Bool.and_eq_true, decide_eq_true_eq] at h
  obtain ⟨⟨hpos, hle⟩, hlt⟩ := h
  have hupper : (Nat.toDigits 10 n).length ≤ count :=
    (Nat.length_toDigits_le_iff (by decide) hpos).2 hlt
  have hlower : ¬ (Nat.toDigits 10 n).length ≤ count - 1 := by
    intro hshort
    by_cases hone : count - 1 = 0
    · have := @Nat.length_toDigits_pos 10 n
      omega
    · have hsmall := (Nat.length_toDigits_le_iff (by decide) (by omega)).1 hshort
      exact absurd hle (Nat.not_le_of_lt hsmall)
  omega

/-- The count of digits is the length of the decimal notation. -/
theorem digitCount_eq (n : Nat) : digitCount n = (Nat.toDigits 10 n).length := by
  simp only [digitCount]
  split
  · next h => exact (length_toDigits_of_hasDigits h).symm
  · split
    · next h => exact (length_toDigits_of_hasDigits h).symm
    · rfl

/-- Every number has a digit. -/
theorem digitCount_pos (n : Nat) : 0 < digitCount n := by
  rw [digitCount_eq]
  exact Nat.length_toDigits_pos

/-- A number has at most `k` digits exactly when it is below the power of ten. -/
theorem digitCount_le_iff {n k : Nat} (hk : 0 < k) : digitCount n ≤ k ↔ n < pow10 k := by
  rw [digitCount_eq]
  exact Nat.length_toDigits_le_iff (by decide) hk

/-! ## Writing -/

/-- The last `k` digits of a number, with zeros in front where it has fewer. -/
def fixedDigits : Nat → Nat → List Char
  | 0, _ => []
  | k + 1, n => fixedDigits k (n / 10) ++ [Nat.digitChar (n % 10)]

/-- There are as many digits as were asked for. -/
@[simp]
theorem length_fixedDigits (k n : Nat) : (fixedDigits k n).length = k := by
  induction k generalizing n with
  | zero => rfl
  | succ k ih => simp [fixedDigits, ih]

/-- Digits can be cut anywhere. -/
theorem fixedDigits_add (j k n : Nat) :
    fixedDigits (j + k) n = fixedDigits j (n / pow10 k) ++ fixedDigits k n := by
  induction k generalizing n with
  | zero => simp [fixedDigits]
  | succ k ih =>
    have hdiv : n / 10 / pow10 k = n / pow10 (k + 1) := by
      rw [Nat.div_div_eq_div_mul, pow10_succ, Nat.mul_comm]
    rw [← Nat.add_assoc, fixedDigits, ih, hdiv, List.append_assoc]
    rfl

/-- The last digits do not depend on what stands before them. -/
theorem fixedDigits_mod (k n : Nat) : fixedDigits k (n % pow10 k) = fixedDigits k n := by
  induction k generalizing n with
  | zero => rfl
  | succ k ih =>
    have hdigit : n % pow10 (k + 1) % 10 = n % 10 :=
      Nat.mod_mod_of_dvd n ⟨pow10 k, by rw [pow10_succ, Nat.mul_comm]⟩
    have hrest : n % pow10 (k + 1) / 10 = n / 10 % pow10 k := by
      rw [pow10_succ, Nat.mul_comm, Nat.mod_mul_right_div_self]
    rw [fixedDigits, fixedDigits, hdigit, hrest, ih]

/-- A number is written with its last digits, as many as it has. -/
theorem fixedDigits_length_toDigits (n : Nat) :
    fixedDigits (Nat.toDigits 10 n).length n = Nat.toDigits 10 n := by
  induction n using Nat.strongRecOn with
  | ind n ih =>
    by_cases hsmall : n < 10
    · simp [Nat.toDigits_of_lt_base hsmall, fixedDigits, Nat.mod_eq_of_lt hsmall]
    · rw [Nat.toDigits_of_base_le (by decide) (by omega), List.length_append, List.length_singleton,
        fixedDigits, ih (n / 10) (by omega)]

/-- The last `width h` digits of a number, with zeros in front where it has fewer, before the given
characters. -/
def digitsBefore : Nat → Nat → List Char → List Char
  | 0, n, after => Nat.digitChar (n % 10) :: after
  | h + 1, n, after =>
    let half := pow10 (width h)
    digitsBefore h (n / half) (digitsBefore h (n % half) after)

/-- Cut in halves again and again, a number is written digit by digit. -/
theorem digitsBefore_eq (h n : Nat) (after : List Char) :
    digitsBefore h n after = fixedDigits (width h) n ++ after := by
  induction h generalizing n after with
  | zero => rfl
  | succ h ih =>
    simp only [digitsBefore]
    rw [ih, ih, fixedDigits_mod, ← List.append_assoc, ← fixedDigits_add, width, Nat.two_mul]

/-- The digits of a natural number. -/
def digitChars (n : Nat) : List Char :=
  let count := digitCount n
  let h := count.log2 + 1
  (digitsBefore h n []).drop (width h - count)

/-- The digits of a number are those of its decimal notation. -/
theorem digitChars_eq (n : Nat) : digitChars n = Nat.toDigits 10 n := by
  have hwidth := lt_width (digitCount n)
  have hsplit : width ((digitCount n).log2 + 1)
      = width ((digitCount n).log2 + 1) - digitCount n + digitCount n := by omega
  simp only [digitChars]
  rw [digitsBefore_eq, List.append_nil]
  conv => lhs; arg 2; rw [hsplit, fixedDigits_add]
  rw [List.drop_append_of_le_length (by simp), List.drop_of_length_le (by simp), List.nil_append,
    digitCount_eq, fixedDigits_length_toDigits]

/-! ## Reading -/

/-- The number that digits write; they are cut in halves `h` times. -/
def valueInHalves : Nat → List Char → Nat
  | 0, cs => Nat.ofDigitChars 10 cs 0
  | h + 1, cs =>
    let k := cs.length / 2
    valueInHalves h (cs.take k) * pow10 (cs.length - k) + valueInHalves h (cs.drop k)

/-- Cut in halves again and again, digits have the value of decimal notation. -/
theorem valueInHalves_eq (h : Nat) (cs : List Char) :
    valueInHalves h cs = Nat.ofDigitChars 10 cs 0 := by
  induction h generalizing cs with
  | zero => rfl
  | succ h ih =>
    have hback (v : Nat) : Nat.ofDigitChars 10 (cs.drop (cs.length / 2)) v
        = pow10 (cs.drop (cs.length / 2)).length * v
          + Nat.ofDigitChars 10 (cs.drop (cs.length / 2)) 0 :=
      Nat.ofDigitChars_eq_ofDigitChars_zero
    simp only [valueInHalves]
    conv => rhs; rw [← List.take_append_drop (cs.length / 2) cs]
    rw [ih, ih, Nat.ofDigitChars_append, hback (Nat.ofDigitChars 10 (cs.take _) 0),
      List.length_drop,
      Nat.mul_comm]

/-- The number of digits that are read one by one. -/
def readAtOnce : Nat := 16

/-- The number that digits write. -/
def valueOfChars (cs : List Char) : Nat :=
  valueInHalves (cs.length / readAtOnce).log2 cs

/-- The value of digits is that of decimal notation. -/
theorem valueOfChars_eq (cs : List Char) : valueOfChars cs = Nat.ofDigitChars 10 cs 0 :=
  valueInHalves_eq _ cs

/-- Reading gives back the number that was written. -/
theorem valueOfChars_digitChars (n : Nat) : valueOfChars (digitChars n) = n := by
  rw [valueOfChars_eq, digitChars_eq, Nat.ofDigitChars_ten_toDigits]

/-! ## Zeros at the end -/

/-- Removes zeros at the end of `n`, at most `limit` of them and fewer than `2 * width h`, and says
how many more could have been removed. -/
def dropZerosBelow : (h limit n : Nat) → Nat × Nat
  | 0, limit, n => if 1 ≤ limit && n % 10 = 0 then (n / 10, limit - 1) else (n, limit)
  | h + 1, limit, n =>
    let size := width (h + 1)
    if size ≤ limit && n % pow10 size = 0 then
      dropZerosBelow h (limit - size) (n / pow10 size)
    else dropZerosBelow h limit n

/-- Removes zeros at the end of `n`, at most `limit` of them, and says how many more could have been
removed. -/
def dropZeros (limit n : Nat) : Nat × Nat :=
  dropZerosBelow limit.log2 limit n

/-- What is removed are factors of ten. -/
theorem dropZerosBelow_eq (h limit n : Nat) :
    (dropZerosBelow h limit n).1 * pow10 (limit - (dropZerosBelow h limit n).2) = n
      ∧ (dropZerosBelow h limit n).2 ≤ limit := by
  induction h generalizing limit n with
  | zero =>
    simp only [dropZerosBelow]
    split
    · next hzero =>
      simp only [Bool.and_eq_true, decide_eq_true_eq] at hzero
      have hexp : limit - (limit - 1) = 0 + 1 := by omega
      simp only [hexp, pow10_succ, pow10_zero]
      omega
    · simp
  | succ h ih =>
    simp only [dropZerosBelow]
    split
    · next hzeros =>
      simp only [Bool.and_eq_true, decide_eq_true_eq] at hzeros
      obtain ⟨hle, hmod⟩ := hzeros
      obtain ⟨hvalue, hleft⟩ := ih (limit - width (h + 1)) (n / pow10 (width (h + 1)))
      generalize dropZerosBelow h (limit - width (h + 1)) (n / pow10 (width (h + 1))) = r at *
      have hexp : limit - r.2 = limit - width (h + 1) - r.2 + width (h + 1) := by omega
      refine ⟨?_, by omega⟩
      rw [hexp, pow10_add, ← Nat.mul_assoc, hvalue,
        Nat.div_mul_cancel (Nat.dvd_of_mod_eq_zero hmod)]
    · exact ih limit n

/-- What `dropZeros` removes are factors of ten. -/
theorem dropZeros_eq (limit n : Nat) :
    (dropZeros limit n).1 * pow10 (limit - (dropZeros limit n).2) = n
      ∧ (dropZeros limit n).2 ≤ limit :=
  dropZerosBelow_eq limit.log2 limit n

/-- What is left after zeros were dropped ends in another digit, unless no more may be dropped. -/
theorem dropZerosBelow_stops (h limit n : Nat)
    (hfew : ∀ k, width (h + 1) ≤ k → k ≤ limit → ¬ pow10 k ∣ n) :
    (dropZerosBelow h limit n).2 = 0 ∨ (dropZerosBelow h limit n).1 % 10 ≠ 0 := by
  induction h generalizing limit n with
  | zero =>
    simp only [dropZerosBelow]
    split
    · next hzero =>
      simp only [Bool.and_eq_true, decide_eq_true_eq] at hzero
      by_cases hlast : limit = 1
      · left
        omega
      · right
        intro hmod
        refine hfew 2 (Nat.le_refl 2) (by omega) ⟨n / 10 / 10, ?_⟩
        have htwo : pow10 2 = 100 := rfl
        simp only at hmod
        rw [htwo]
        omega
    · next hzero =>
      simp only [Bool.and_eq_true, decide_eq_true_eq, not_and] at hzero
      by_cases hlimit : limit = 0
      · exact .inl hlimit
      · exact .inr (hzero (by omega))
  | succ h ih =>
    have hwidth : width (h + 1 + 1) = width (h + 1) + width (h + 1) := by
      rw [width, Nat.two_mul]
    simp only [dropZerosBelow]
    split
    · next hzeros =>
      simp only [Bool.and_eq_true, decide_eq_true_eq] at hzeros
      obtain ⟨hle, hmod⟩ := hzeros
      refine ih _ _ fun k hk hlimit hdvd => hfew (k + width (h + 1)) (by omega) (by omega) ?_
      rw [pow10_add, ← Nat.div_mul_cancel (Nat.dvd_of_mod_eq_zero hmod)]
      exact Nat.mul_dvd_mul_right hdvd _
    · next hzeros =>
      simp only [Bool.and_eq_true, decide_eq_true_eq, not_and] at hzeros
      refine ih _ _ fun k hk hlimit hdvd => hzeros (by omega) ?_
      exact Nat.mod_eq_zero_of_dvd (Nat.dvd_trans (pow10_dvd_pow10 hk) hdvd)

/-- `dropZeros` stops at the limit or at a digit that is not zero. -/
theorem dropZeros_stops (limit n : Nat) :
    (dropZeros limit n).2 = 0 ∨ (dropZeros limit n).1 % 10 ≠ 0 :=
  dropZerosBelow_stops limit.log2 limit n fun k hk hlimit =>
    absurd (lt_width limit) (by omega)

end QLisp.Decimal
