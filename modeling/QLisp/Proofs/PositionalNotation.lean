import Mathlib
import QLisp.Proofs.LexicalGrammar
import QLisp.Proofs.QuotientRounding
import QLisp.Proofs.RoundTrip

/-!
# Decimals in positional notation

The text of a decimal is made from the digits of its integer: zeros go in front of them or after
them, and a point between them. A `PositionalNumeral` describes such a text from the other end, by
its sign, the digits before the point and those after it, and has a value of its own, in which
every digit counts for the power of ten of its place.

`Decimal.numeral` is the numeral that is written for a decimal. It has the sign and the value of the
decimal and as many digits after the point as the scale says, where a negative scale counts as zero.
Since a numeral can be read off its text (`PositionalNumeral.chars_injective`), the text determines
the integer and the scale up to the zeros that a negative scale stands for
(`Decimal.render_eq_render_iff`). The statement is `Decimal.renders_positionally`.
-/

set_option autoImplicit false

namespace QLisp

open scoped Computability

/-! ## Numerals -/

/-- A number in positional notation: a sign or none, the digits before the point, and those after
it. Before the point there is at least one digit, and the first one is a zero only if it is alone.
-/
@[ext]
structure PositionalNumeral where
  negative : Bool
  whole : List Char
  places : List Char
  isDigit_whole : ∀ c ∈ whole, c.isDigit = true
  isDigit_places : ∀ c ∈ places, c.isDigit = true
  leading : whole = ['0'] ∨ ∃ c rest, c ≠ '0' ∧ whole = c :: rest

namespace PositionalNumeral

open LexicalRule (one IsDigit)

/-- The sign of a numeral, if there is one. -/
def sign (n : PositionalNumeral) : List Char :=
  if n.negative then ['-'] else []

/-- The point and the digits after it; without such digits there is no point. -/
def fraction (n : PositionalNumeral) : List Char :=
  if n.places = [] then [] else '.' :: n.places

/-- The characters of a numeral. -/
def chars (n : PositionalNumeral) : List Char :=
  n.sign ++ n.whole ++ n.fraction

/-- What digits count for if the first of them stands at the place `e`, that of `10 ^ e`, and every
other one a place after the one before. -/
def placeValue (e : ℤ) : List Char → ℚ
  | [] => 0
  | c :: cs => (c.toNat - '0'.toNat : ℕ) * (10 : ℚ) ^ e + placeValue (e - 1) cs

/-- The number that a numeral writes: the last digit before the point stands at the place zero. -/
def value (n : PositionalNumeral) : ℚ :=
  (if n.negative then -1 else 1) * placeValue (n.whole.length - 1) (n.whole ++ n.places)

/-- The texts `-?(0|[1-9][0-9]*)(\.[0-9]+)?`. -/
def language : Language Char :=
  (1 + one (· = '-')) *
    (one (· = '0') + one (fun c => '1' ≤ c ∧ c ≤ '9') * (one IsDigit)∗) *
    (1 + one (· = '.') * (one IsDigit * (one IsDigit)∗))

/-! ### The language of numerals -/

/-- The digits from one to nine are those other than zero. -/
theorem nonzeroDigit_iff {c : Char} : '1' ≤ c ∧ c ≤ '9' ↔ c.isDigit = true ∧ c ≠ '0' := by
  have hzero : c ≠ '0' ↔ c.val.toNat ≠ '0'.val.toNat := not_congr Char.toNat_inj.symm
  have hbounds : '0'.val.toNat = 48 ∧ '1'.val.toNat = 49 ∧ '9'.val.toNat = 57 := ⟨rfl, rfl, rfl⟩
  rw [← LexicalRule.isDigit_iff, IsDigit, hzero, Char.le_def, Char.le_def, Char.le_def,
    UInt32.le_iff_toNat_le, UInt32.le_iff_toNat_le, UInt32.le_iff_toNat_le]
  omega

/-- The whole part is a zero, or digits that do not start with one. -/
theorem mem_whole_iff {cs : List Char} :
    cs ∈ one (· = '0') + one (fun c => '1' ≤ c ∧ c ≤ '9') * (one IsDigit)∗ ↔
      (∀ c ∈ cs, c.isDigit = true) ∧ (cs = ['0'] ∨ ∃ c rest, c ≠ '0' ∧ cs = c :: rest) := by
  rw [Language.mem_add, LexicalRule.mem_one_mul]
  constructor
  · rintro (⟨_, rfl, rfl⟩ | ⟨c, rest, hc, hrest, rfl⟩)
    · exact ⟨List.forall_mem_singleton.2 rfl, .inl rfl⟩
    · obtain ⟨hdigit, hne⟩ := nonzeroDigit_iff.1 hc
      refine ⟨List.forall_mem_cons.2 ⟨hdigit, fun d hd => ?_⟩, .inr ⟨c, rest, hne, rfl⟩⟩
      exact LexicalRule.isDigit_iff.1 (LexicalRule.mem_kstar_one.1 hrest d hd)
  · rintro ⟨hdigits, rfl | ⟨c, rest, hne, rfl⟩⟩
    · exact .inl ⟨'0', rfl, rfl⟩
    · obtain ⟨hdigit, hrest⟩ := List.forall_mem_cons.1 hdigits
      refine .inr ⟨c, rest, nonzeroDigit_iff.2 ⟨hdigit, hne⟩, ?_, rfl⟩
      exact LexicalRule.mem_kstar_one.2 fun d hd => LexicalRule.isDigit_iff.2 (hrest d hd)

/-- The fraction is a point and digits, or nothing. -/
theorem mem_fraction_iff {cs : List Char} :
    cs ∈ 1 + one (· = '.') * (one IsDigit * (one IsDigit)∗) ↔
      ∃ places : List Char, (∀ c ∈ places, c.isDigit = true) ∧
        cs = if places = [] then [] else '.' :: places := by
  rw [Language.mem_add, Language.mem_one, LexicalRule.mem_one_mul]
  constructor
  · rintro (rfl | ⟨_, places, rfl, hplaces, rfl⟩)
    · exact ⟨[], by simp, rfl⟩
    · obtain ⟨hne, hdigits⟩ := LexicalRule.mem_one_mul_kstar_one.1 hplaces
      refine ⟨places, fun c hc => LexicalRule.isDigit_iff.1 (hdigits c hc), ?_⟩
      rw [if_neg hne]
  · rintro ⟨places, hdigits, rfl⟩
    split
    · exact .inl rfl
    · next hne =>
      refine .inr ⟨'.', places, rfl, LexicalRule.mem_one_mul_kstar_one.2 ⟨hne, ?_⟩, rfl⟩
      exact fun c hc => LexicalRule.isDigit_iff.2 (hdigits c hc)

/-- The texts of the language are the texts of numerals. -/
theorem mem_language_iff {cs : List Char} :
    cs ∈ language ↔ ∃ n : PositionalNumeral, cs = n.chars := by
  rw [language, Language.mem_mul]
  constructor
  · rintro ⟨_, hfront, _, hfraction, rfl⟩
    obtain ⟨_, hsign, whole, hwhole, rfl⟩ := Language.mem_mul.1 hfront
    obtain ⟨negative, rfl⟩ := LexicalRule.mem_sign_iff.1 hsign
    obtain ⟨hdigits, hleading⟩ := mem_whole_iff.1 hwhole
    obtain ⟨places, hplaces, rfl⟩ := mem_fraction_iff.1 hfraction
    exact ⟨⟨negative, whole, places, hdigits, hplaces, hleading⟩, rfl⟩
  · rintro ⟨n, rfl⟩
    have hsign := LexicalRule.mem_sign_iff.2 ⟨n.negative, rfl⟩
    have hwhole := mem_whole_iff.2 ⟨n.isDigit_whole, n.leading⟩
    have hfraction := mem_fraction_iff.2 ⟨n.places, n.isDigit_places, rfl⟩
    exact ⟨_, Language.mem_mul.2 ⟨_, hsign, _, hwhole, rfl⟩, _, hfraction, rfl⟩

/-! ### Reading a numeral off its text -/

/-- The whole part has a first digit. -/
theorem exists_whole_cons (n : PositionalNumeral) :
    ∃ c rest, c.isDigit = true ∧ n.whole = c :: rest := by
  rcases n.leading with hzero | ⟨c, rest, -, hwhole⟩
  · exact ⟨'0', [], by decide, hzero⟩
  · exact ⟨c, rest, n.isDigit_whole c (hwhole ▸ List.mem_cons_self), hwhole⟩

/-- The digits before the point are all the digits that come first. -/
theorem takeWhile_whole_append (n : PositionalNumeral) :
    (n.whole ++ n.fraction).takeWhile Char.isDigit = n.whole := by
  have hpoint : n.fraction.takeWhile Char.isDigit = [] := by
    unfold fraction
    split
    · rfl
    · exact List.takeWhile_cons_of_neg (by decide)
  rw [List.takeWhile_append_of_pos n.isDigit_whole, hpoint, List.append_nil]

/-- The places are known by the fraction. -/
theorem places_eq_of_fraction_eq {n m : PositionalNumeral} (h : n.fraction = m.fraction) :
    n.places = m.places := by
  unfold fraction at h
  split_ifs at h with hn hm hm
  · rw [hn, hm]
  · exact (List.cons.inj h).2

/-- The sign is known by the notation. -/
theorem negative_eq_of_chars_eq {n m : PositionalNumeral} (h : n.chars = m.chars) :
    n.negative = m.negative := by
  -- a sign is no digit, and without a sign the text starts with one
  have hminus : '-'.isDigit = false := by decide
  obtain ⟨c, rest, hc, hn⟩ := n.exists_whole_cons
  obtain ⟨d, rest', hd, hm⟩ := m.exists_whole_cons
  unfold chars sign at h
  rw [hn, hm] at h
  cases hneg : n.negative <;> cases hneg' : m.negative
  · rfl
  · rw [hneg, hneg'] at h
    obtain ⟨rfl, -⟩ := List.cons.inj h
    cases hminus.symm.trans hc
  · rw [hneg, hneg'] at h
    obtain ⟨rfl, -⟩ := List.cons.inj h
    cases hminus.symm.trans hd
  · rfl

/-- A numeral is known by its notation. -/
theorem chars_injective : Function.Injective chars := by
  intro n m h
  have hnegative := negative_eq_of_chars_eq h
  have hsign : n.sign = m.sign := by rw [sign, sign, hnegative]
  have hrest : n.whole ++ n.fraction = m.whole ++ m.fraction := by
    rw [chars, chars, hsign, List.append_assoc, List.append_assoc] at h
    exact List.append_cancel_left h
  have hwhole : n.whole = m.whole := by
    rw [← n.takeWhile_whole_append, hrest, m.takeWhile_whole_append]
  rw [hwhole] at hrest
  exact PositionalNumeral.ext hnegative hwhole
    (places_eq_of_fraction_eq (List.append_cancel_left hrest))

/-! ### The value of digits -/

/-- Digits count for the integer that they write, moved to the place of the last of them. -/
theorem placeValue_eq (e : ℤ) (cs : List Char) :
    placeValue e cs = Nat.ofDigitChars 10 cs 0 * (10 : ℚ) ^ (e + 1 - cs.length) := by
  induction cs generalizing e with
  | nil => simp [placeValue]
  | cons c cs ih =>
    have hlast : e - 1 + 1 - (cs.length : ℤ) = e + 1 - ((c :: cs).length : ℤ) := by
      rw [List.length_cons, Nat.cast_succ]
      omega
    have hfirst : (10 : ℚ) ^ e
        = (10 : ℚ) ^ cs.length * (10 : ℚ) ^ (e + 1 - ((c :: cs).length : ℤ)) := by
      rw [← zpow_natCast, ← zpow_add₀ (by norm_num), List.length_cons, Nat.cast_succ]
      congr 1
      omega
    rw [placeValue, ih, hlast, hfirst, Nat.ofDigitChars_cons,
      @Nat.ofDigitChars_eq_ofDigitChars_zero cs (10 * 0 + _), Nat.mul_zero, Nat.zero_add]
    push_cast
    ring

end PositionalNumeral

/-! ## The numeral of a decimal -/

namespace Decimal

/-- The first digit of a number other than zero is no zero. -/
theorem exists_digitChars_cons {n : ℕ} (hn : n ≠ 0) :
    ∃ c rest, c ≠ '0' ∧ digitChars n = c :: rest := by
  rw [digitChars_eq]
  induction n using Nat.strongRecOn with
  | _ n ih =>
    by_cases hsmall : n < 10
    · have hpos : 0 < n := Nat.pos_of_ne_zero hn
      refine ⟨_, _, ?_, Nat.toDigits_of_lt_base hsmall⟩
      interval_cases n <;> decide
    · obtain ⟨c, rest, hc, hfirst⟩ := ih (n / 10) (by omega) (by omega)
      rw [Nat.toDigits_of_base_le (by decide) (by omega), hfirst]
      exact ⟨c, _, hc, rfl⟩

/-- A power of ten adds zeros at the end. -/
theorem digitChars_mul_pow10 {n : ℕ} (hn : n ≠ 0) (k : ℕ) :
    digitChars (n * pow10 k) = digitChars n ++ List.replicate k '0' := by
  simp only [digitChars_eq]
  induction k with
  | zero => simp
  | succ k ih =>
    have hpos : 0 < n * pow10 k := Nat.mul_pos (Nat.pos_of_ne_zero hn) (pow10_pos k)
    have hzero : Nat.toDigits 10 0 = ['0'] := rfl
    have hstep := Nat.toDigits_append_toDigits (b := 10) (by decide) hpos (by decide : 0 < 10)
    rw [pow10_succ, ← Nat.mul_assoc, Nat.mul_comm _ 10, ← Nat.add_zero (10 * _), ← hstep, ih, hzero,
      List.append_assoc, List.replicate_succ']

/-- Writing out the zeros of a negative scale keeps the sign. -/
theorem digits_withoutNegativeScale_neg_iff (d : Decimal) :
    (withoutNegativeScale d).digits < 0 ↔ d.digits < 0 := by
  unfold withoutNegativeScale
  split
  · have hpow : (0 : ℤ) < pow10 (-d.scale).toNat := Int.natCast_pos.2 (pow10_pos _)
    exact ⟨fun h => neg_of_mul_neg_left h hpow.le, fun h => mul_neg_of_neg_of_pos h hpow⟩
  · rfl

/-- A negative scale is written as the zeros for which it stands. -/
theorem chars_withoutNegativeScale (d : Decimal) : (withoutNegativeScale d).chars = d.chars := by
  have hsign := digits_withoutNegativeScale_neg_iff d
  unfold withoutNegativeScale at hsign ⊢
  split
  · next hneg =>
    rw [if_pos hneg] at hsign
    by_cases hzero : d.digits = 0
    · simp [chars, isZero, hzero, hneg.le]
    · have hdigits := digitChars_mul_pow10 (Int.natAbs_ne_zero.2 hzero) (-d.scale).toNat
      simp [chars, isZero, hzero, hneg.le, hsign, Int.natAbs_mul, hdigits]
  · rfl

/-- The digits of a number with zeros in front, so that a digit stands before the last `scale` of
them. -/
def paddedDigits (n scale : ℕ) : List Char :=
  List.replicate (scale + 1 - (digitChars n).length) '0' ++ digitChars n

section PaddedDigits

variable (n scale : ℕ)

/-- Every number has a digit. -/
theorem length_digitChars_pos : 0 < (digitChars n).length :=
  List.length_pos_iff.2 (digitChars_ne_nil n)

/-- Padded digits have one more digit than the scale at least. -/
theorem lt_length_paddedDigits : scale < (paddedDigits n scale).length := by
  rw [paddedDigits, List.length_append, List.length_replicate]
  omega

/-- Padded digits are digits. -/
theorem isDigit_of_mem_paddedDigits {c : Char} (h : c ∈ paddedDigits n scale) :
    c.isDigit = true := by
  rcases List.mem_append.1 h with h | h
  · rw [(List.mem_replicate.1 h).2]
    decide
  · exact isDigit_of_mem_digitChars h

/-- Padded digits have the value of the number. -/
theorem ofDigitChars_paddedDigits : Nat.ofDigitChars 10 (paddedDigits n scale) 0 = n := by
  rw [paddedDigits, ← valueOfChars_eq, valueOfChars_replicate_append]

/-- Without places nothing is padded. -/
theorem paddedDigits_zero : paddedDigits n 0 = digitChars n := by
  have hlength := length_digitChars_pos n
  have hnone : 0 + 1 - (digitChars n).length = 0 := by omega
  rw [paddedDigits, hnone, List.replicate_zero, List.nil_append]

/-- Zeros are put in front only up to the digit before the point. -/
theorem leading_paddedDigits {whole : List Char}
    (h : whole = (paddedDigits n scale).take ((paddedDigits n scale).length - scale)) :
    whole = ['0'] ∨ ∃ c rest, c ≠ '0' ∧ whole = c :: rest := by
  by_cases hshort : (digitChars n).length ≤ scale
  · left
    have hlength : (paddedDigits n scale).length - scale = 1 := by
      rw [paddedDigits, List.length_append, List.length_replicate]
      omega
    have hzeros : scale + 1 - (digitChars n).length = scale - (digitChars n).length + 1 := by omega
    rw [h, hlength, paddedDigits, hzeros, List.replicate_succ]
    rfl
  · have hnone : scale + 1 - (digitChars n).length = 0 := by omega
    rw [paddedDigits, hnone, List.replicate_zero, List.nil_append] at h
    by_cases hn : n = 0
    · left
      have hdigits : digitChars n = ['0'] := by rw [hn, digitChars_eq]; rfl
      rw [hdigits] at h hshort
      have hscale : scale = 0 := by simpa using hshort
      rw [h, hscale]
      rfl
    · right
      obtain ⟨c, rest, hc, hfirst⟩ := exists_digitChars_cons hn
      have hlength : (digitChars n).length - scale = rest.length - scale + 1 := by
        rw [hfirst, List.length_cons] at hshort ⊢
        omega
      rw [hlength, hfirst, List.take_succ_cons] at h
      exact ⟨c, _, hc, h⟩

end PaddedDigits

/-- The numeral of a decimal without negative scale: its digits are cut before the last ones, as
many as the scale says. -/
def numeralAtScale (d : Decimal) : PositionalNumeral where
  negative := d.digits < 0
  whole := (paddedDigits d.digits.natAbs d.scale.toNat).take
    ((paddedDigits d.digits.natAbs d.scale.toNat).length - d.scale.toNat)
  places := (paddedDigits d.digits.natAbs d.scale.toNat).drop
    ((paddedDigits d.digits.natAbs d.scale.toNat).length - d.scale.toNat)
  isDigit_whole _ hc := isDigit_of_mem_paddedDigits _ _ (List.mem_of_mem_take hc)
  isDigit_places _ hc := isDigit_of_mem_paddedDigits _ _ (List.mem_of_mem_drop hc)
  leading := leading_paddedDigits _ _ rfl

/-- The numeral that is written for a decimal. -/
def numeral (d : Decimal) : PositionalNumeral :=
  (withoutNegativeScale d).numeralAtScale

section NumeralAtScale

variable (d : Decimal)

/-- The digits of a numeral are those of the decimal, padded. -/
theorem whole_append_places :
    d.numeralAtScale.whole ++ d.numeralAtScale.places
      = paddedDigits d.digits.natAbs d.scale.toNat :=
  List.take_append_drop _ _

/-- A numeral has as many places as the scale says. -/
theorem length_places : d.numeralAtScale.places.length = d.scale.toNat := by
  have hlength := lt_length_paddedDigits d.digits.natAbs d.scale.toNat
  rw [numeralAtScale, List.length_drop]
  omega

/-- The digits of a numeral have the value of those of the decimal. -/
theorem ofDigitChars_numeralAtScale :
    Nat.ofDigitChars 10 (d.numeralAtScale.whole ++ d.numeralAtScale.places) 0
      = d.digits.natAbs := by
  rw [whole_append_places, ofDigitChars_paddedDigits]

/-- A numeral has a minus if the decimal is negative. -/
theorem sign_numeralAtScale :
    d.numeralAtScale.sign = if d.digits < 0 then ['-'] else [] := by
  simp [PositionalNumeral.sign, numeralAtScale]

variable {d} (h : 0 ≤ d.scale)

include h

/-- The numeral is written as the decimal is. -/
theorem chars_numeralAtScale : d.numeralAtScale.chars = d.chars := by
  rw [PositionalNumeral.chars, sign_numeralAtScale, List.append_assoc, chars]
  by_cases hscale : d.scale = 0
  · have hplaces : d.numeralAtScale.places = [] := by
      rw [← List.length_eq_zero_iff, length_places, hscale]
      rfl
    have hwhole := whole_append_places d
    rw [hplaces, List.append_nil, hscale, Int.toNat_zero, paddedDigits_zero] at hwhole
    simp [PositionalNumeral.fraction, hplaces, hwhole, hscale]
  · have hplaces : d.numeralAtScale.places ≠ [] := by
      rw [← List.length_pos_iff, length_places]
      omega
    rw [PositionalNumeral.fraction, if_neg hplaces, if_neg (show ¬ d.scale ≤ 0 by omega)]
    rfl

/-- The numeral has the value of the decimal. -/
theorem value_numeralAtScale : d.numeralAtScale.value = d.digits * (10 : ℚ) ^ (-d.scale) := by
  have hplace : (d.numeralAtScale.whole.length : ℤ) - 1 + 1
      - ((d.numeralAtScale.whole ++ d.numeralAtScale.places).length : ℤ) = -d.scale := by
    rw [List.length_append, length_places]
    push_cast
    omega
  have hdigits : ((if d.digits < 0 then -1 else 1 : ℚ)) * (d.digits.natAbs : ℚ) = d.digits := by
    split
    · next hneg =>
      rw [Nat.cast_natAbs, abs_of_neg hneg]
      push_cast
      ring
    · next hpos => rw [Nat.cast_natAbs, abs_of_nonneg (not_lt.1 hpos), one_mul]
  rw [PositionalNumeral.value, PositionalNumeral.placeValue_eq, hplace, ofDigitChars_numeralAtScale,
    ← mul_assoc, ← hdigits]
  simp [numeralAtScale]

end NumeralAtScale

variable (d : Decimal)

/-- No negative scale is left. -/
theorem scale_withoutNegativeScale_nonneg : 0 ≤ (withoutNegativeScale d).scale := by
  rw [scale_withoutNegativeScale]
  exact le_max_right _ _

/-- The numeral of a decimal is what is written for it. -/
theorem toList_render : d.render.toList = d.numeral.chars := by
  rw [render, String.toList_ofList, numeral,
    chars_numeralAtScale (scale_withoutNegativeScale_nonneg d), chars_withoutNegativeScale]

/-- The numeral of a decimal has its value. -/
theorem value_numeral : d.numeral.value = d.value := by
  rw [numeral, value_numeralAtScale (scale_withoutNegativeScale_nonneg d),
    ← value_withoutNegativeScale d]
  rfl

/-- The numeral of a decimal has as many places as the scale says, if any. -/
theorem length_places_numeral : (d.numeral.places.length : ℤ) = max d.scale 0 := by
  rw [numeral, length_places, Int.toNat_of_nonneg (scale_withoutNegativeScale_nonneg d),
    scale_withoutNegativeScale]

/-- The numeral of a decimal has a minus exactly if the decimal is negative. -/
theorem negative_numeral : d.numeral.negative = true ↔ d.digits < 0 := by
  rw [numeral, numeralAtScale, decide_eq_true_iff, digits_withoutNegativeScale_neg_iff]

variable {d}

/-- A decimal is known by its scale and its value. -/
theorem eq_of_value_eq {a b : Decimal} (hscale : a.scale = b.scale) (hvalue : a.value = b.value) :
    a = b := by
  have hpow : (10 : ℚ) ^ (-b.scale) ≠ 0 := zpow_ne_zero _ (by norm_num)
  rw [value, value, hscale] at hvalue
  have hdigits : a.digits = b.digits := Int.cast_injective (mul_right_cancel₀ hpow hvalue)
  cases a
  cases b
  rw [mk.injEq]
  exact ⟨hdigits, hscale⟩

/-- Two decimals have one text exactly if they are the same decimal once negative scales are written
as zeros. -/
theorem render_eq_render_iff {a b : Decimal} :
    a.render = b.render ↔ withoutNegativeScale a = withoutNegativeScale b := by
  constructor
  · intro h
    have hnumeral : a.numeral = b.numeral := by
      apply PositionalNumeral.chars_injective
      rw [← toList_render, ← toList_render, h]
    apply eq_of_value_eq
    · rw [scale_withoutNegativeScale, scale_withoutNegativeScale, ← length_places_numeral,
        ← length_places_numeral, hnumeral]
    · rw [value_withoutNegativeScale, value_withoutNegativeScale, ← value_numeral, ← value_numeral,
        hnumeral]
  · intro h
    rw [render, render, ← chars_withoutNegativeScale a, ← chars_withoutNegativeScale b, h]

end Decimal

end QLisp
