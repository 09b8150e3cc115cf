import Mathlib
import QLisp.Proofs.DecimalValue
import QLisp.Proofs.Layout

/-!
# The lexical grammar

The scan looks at the next one or two characters to choose what it cuts off. The grammar of lexemes
says it in another way: there are four rules in a fixed order, each rule is a language of texts, and
the first rule with a text at the front of what is left takes the longest such text. `judged_cut`
says that a single cut does what the rules say, and `tokenized_scanFrom` that the whole scan does,
with one invalid token and one diagnostic wherever no rule applies.
-/

set_option autoImplicit false

namespace QLisp

open scoped Computability

/-! ## Languages of lexemes -/

/-- The rules of lexemes. -/
inductive LexicalRule where
  | delimiter
  | number
  | symbol
  | quoted

namespace LexicalRule

/-- The texts of a single character of a class. -/
def one (p : Char → Prop) : Language Char :=
  {cs | ∃ c, p c ∧ cs = [c]}

/-- The class `[0-9]`. -/
def IsDigit (c : Char) : Prop :=
  '0' ≤ c ∧ c ≤ '9'

/-- The class of the characters of symbols. -/
def IsSymbolic (c : Char) : Prop :=
  'A' ≤ c ∧ c ≤ 'Z' ∨ 'a' ≤ c ∧ c ≤ 'z' ∨ IsDigit c ∨
    c ∈ ['_', '+', '-', '*', '/', '\\', '=', '<', '>', '!', '&']

/-- The texts that a rule describes. -/
def language : LexicalRule → Language Char
  | delimiter => one (· ∈ ['(', ')', '{', '}'])
  | number =>
    (1 + one (· = '-')) * (one IsDigit * (one IsDigit)∗) * (1 + one (· = '.') * one IsDigit)
  | symbol => one IsSymbolic * (one IsSymbolic)∗
  | quoted =>
    one (· = '"') * (one (fun c => c ≠ '"' ∧ c ≠ '\\') + one (· = '\\') * one (fun _ => True))∗
      * one (· = '"')

/-- The place of a rule in the order in which the rules are tried. -/
def rank : LexicalRule → ℕ
  | delimiter => 0
  | number => 1
  | symbol => 2
  | quoted => 3

/-- Some text of a rule stands at the front of `cs`. -/
def Applies (rule : LexicalRule) (cs : List Char) : Prop :=
  ∃ front ∈ rule.language, front <+: cs

/-- A rule takes `text` off the front of `text ++ rest`: no rule before it applies, and `text` is
the longest of its texts that stands there. -/
structure Takes (rule : LexicalRule) (text rest : List Char) : Prop where
  first : ∀ earlier : LexicalRule, earlier.rank < rule.rank → ¬ earlier.Applies (text ++ rest)
  mem : text ∈ rule.language
  longest : ∀ front ∈ rule.language, front <+: text ++ rest → front.length ≤ text.length

end LexicalRule

/-- A number as it is written: a sign or none, digits, and one more digit after a point or none. -/
structure Numeral where
  negative : Bool
  whole : List Char
  tenth : Option Char
  whole_ne_nil : whole ≠ []
  isDigit_whole : ∀ c ∈ whole, c.isDigit = true
  isDigit_tenth : ∀ c ∈ tenth, c.isDigit = true

namespace Numeral

/-- The sign of a numeral, if there is one. -/
def sign (n : Numeral) : List Char :=
  if n.negative then ['-'] else []

/-- The point of a numeral and the digit after it, if there is one. -/
def fraction (n : Numeral) : List Char :=
  n.tenth.elim [] fun c => ['.', c]

/-- The characters of a numeral. -/
def chars (n : Numeral) : List Char :=
  n.sign ++ n.whole ++ n.fraction

/-- The number that a numeral writes. -/
def value (n : Numeral) : ℚ :=
  (if n.negative then -1 else 1) *
    (Nat.ofDigitChars 10 n.whole 0 + Nat.ofDigitChars 10 n.tenth.toList 0 / 10)

/-- A decimal is the one that a numeral writes: they agree in value, and the scale is one if there
is a digit after the point and zero otherwise. -/
structure Writes (n : Numeral) (d : Decimal) : Prop where
  value_eq : d.value = n.value
  scale_eq : d.scale = if n.tenth.isSome then 1 else 0

end Numeral

namespace LexicalRule

/-- What the texts of a rule mean. -/
def Means : LexicalRule → List Char → TokenKind → Prop
  | delimiter, text, kind =>
    (text, kind) ∈ [(['('], .opener .paren), ([')'], .closer .paren), (['{'], .opener .brace),
      (['}'], .closer .brace)]
  | number, text, kind => ∃ (n : Numeral) (d : Decimal),
    text = n.chars ∧ n.Writes d ∧ kind = .atom (.number d)
  | symbol, text, kind => kind = .atom (.symbol (String.ofList text))
  | quoted, text, kind => ∃ content : List Char,
    text = '"' :: content ++ ['"'] ∧ kind = .atom (.text (String.ofList content))

/-! ## What is in the languages -/

/-- The digits of the grammar are those that the lexer knows. -/
theorem isDigit_iff {c : Char} : IsDigit c ↔ c.isDigit = true := by
  simp [IsDigit, Char.isDigit, Char.le_def]

/-- The symbol characters of the grammar are those that the lexer knows. -/
theorem isSymbolic_iff {c : Char} : IsSymbolic c ↔ Lexeme.isSymbolChar c = true := by
  simp [IsSymbolic, IsDigit, Lexeme.isSymbolChar, Char.isAlphanum, Char.isAlpha, Char.isUpper,
    Char.isLower, Char.isDigit, Char.le_def, or_assoc]

section Languages

variable {p : Char → Prop} {l : Language Char} {cs : List Char}

/-- A word of a character and a rest. -/
theorem mem_one_mul : cs ∈ one p * l ↔ ∃ c rest, p c ∧ rest ∈ l ∧ cs = c :: rest := by
  rw [Language.mem_mul]
  constructor
  · rintro ⟨_, ⟨c, hc, rfl⟩, rest, hrest, rfl⟩
    exact ⟨c, rest, hc, hrest, rfl⟩
  · rintro ⟨c, rest, hc, hrest, rfl⟩
    exact ⟨[c], ⟨c, hc, rfl⟩, rest, hrest, rfl⟩

/-- A repetition is empty, or begins with a word of the language. -/
theorem mem_kstar_iff : cs ∈ l∗ ↔ cs = [] ∨ cs ∈ l * l∗ := by
  rw [← Language.mem_one, ← Language.mem_add, Language.one_add_self_mul_kstar_eq_kstar]

/-- The repetitions of a character class. -/
theorem mem_kstar_one : cs ∈ (one p)∗ ↔ ∀ c ∈ cs, p c := by
  induction cs with
  | nil => simp [Language.nil_mem_kstar]
  | cons c cs ih =>
    rw [mem_kstar_iff, mem_one_mul, List.forall_mem_cons, ← ih]
    constructor
    · rintro (hnil | ⟨_, _, hc, hcs, heq⟩)
      · cases hnil
      · obtain ⟨rfl, rfl⟩ := List.cons.inj heq
        exact ⟨hc, hcs⟩
    · rintro ⟨hc, hcs⟩
      exact .inr ⟨c, cs, hc, hcs, rfl⟩

/-- One or more characters of a class. -/
theorem mem_one_mul_kstar_one : cs ∈ one p * (one p)∗ ↔ cs ≠ [] ∧ ∀ c ∈ cs, p c := by
  rw [mem_one_mul]
  constructor
  · rintro ⟨c, rest, hc, hrest, rfl⟩
    exact ⟨List.cons_ne_nil c rest, List.forall_mem_cons.2 ⟨hc, mem_kstar_one.1 hrest⟩⟩
  · rintro ⟨hne, hcs⟩
    obtain ⟨c, rest, rfl⟩ := List.exists_cons_of_ne_nil hne
    obtain ⟨hc, hrest⟩ := List.forall_mem_cons.1 hcs
    exact ⟨c, rest, hc, mem_kstar_one.2 hrest, rfl⟩

/-- The words of the rule for symbols. -/
theorem mem_symbol_iff :
    cs ∈ symbol.language ↔ cs ≠ [] ∧ ∀ c ∈ cs, Lexeme.isSymbolChar c = true := by
  simp only [language, mem_one_mul_kstar_one, isSymbolic_iff]

/-- A sign is a minus or nothing. -/
theorem mem_sign_iff :
    cs ∈ 1 + one (· = '-') ↔ ∃ negative : Bool, cs = if negative then ['-'] else [] := by
  rw [Language.mem_add, Language.mem_one, Bool.exists_bool]
  refine or_congr_right ?_
  constructor
  · rintro ⟨_, rfl, rfl⟩
    rfl
  · rintro rfl
    exact ⟨'-', rfl, rfl⟩

/-- A fraction is a point and a digit, or nothing. -/
theorem mem_fraction_iff :
    cs ∈ 1 + one (· = '.') * one IsDigit ↔
      ∃ tenth : Option Char, (∀ c ∈ tenth, c.isDigit = true) ∧
        cs = tenth.elim [] fun c => ['.', c] := by
  rw [Language.mem_add, Language.mem_one, Option.exists, mem_one_mul]
  refine or_congr (by simp) ?_
  constructor
  · rintro ⟨_, _, rfl, ⟨c, hc, rfl⟩, rfl⟩
    exact ⟨c, by simpa using isDigit_iff.1 hc, rfl⟩
  · rintro ⟨c, hc, rfl⟩
    exact ⟨'.', [c], rfl, ⟨c, isDigit_iff.2 (hc c rfl), rfl⟩, rfl⟩

/-- The words of the rule for numbers are the numerals. -/
theorem mem_number_iff : cs ∈ number.language ↔ ∃ n : Numeral, cs = n.chars := by
  rw [language, Language.mem_mul]
  constructor
  · rintro ⟨_, hfront, _, hfraction, rfl⟩
    obtain ⟨_, hsign, whole, hwhole, rfl⟩ := Language.mem_mul.1 hfront
    obtain ⟨negative, rfl⟩ := mem_sign_iff.1 hsign
    obtain ⟨hne, hdigits⟩ := mem_one_mul_kstar_one.1 hwhole
    obtain ⟨tenth, htenth, rfl⟩ := mem_fraction_iff.1 hfraction
    exact ⟨⟨negative, whole, tenth, hne, fun c hc => isDigit_iff.1 (hdigits c hc), htenth⟩, rfl⟩
  · rintro ⟨n, rfl⟩
    have hwhole : n.whole ∈ one IsDigit * (one IsDigit)∗ :=
      mem_one_mul_kstar_one.2 ⟨n.whole_ne_nil, fun c hc => isDigit_iff.2 (n.isDigit_whole c hc)⟩
    have hfraction := mem_fraction_iff.2 ⟨n.tenth, n.isDigit_tenth, rfl⟩
    have hsign := mem_sign_iff.2 ⟨n.negative, rfl⟩
    exact ⟨_, Language.mem_mul.2 ⟨_, hsign, _, hwhole, rfl⟩, _, hfraction, rfl⟩

/-- Between quotes stand plain characters, and pairs of a backslash and some character. -/
theorem mem_content_iff :
    cs ∈ (one (fun c => c ≠ '"' ∧ c ≠ '\\') + one (· = '\\') * one (fun _ => True))∗ ↔
      Lexeme.Enclosed cs := by
  constructor
  · intro h
    rw [Language.mem_kstar] at h
    obtain ⟨pieces, rfl, hpieces⟩ := h
    induction pieces with
    | nil => exact .nil
    | cons piece pieces ih =>
      obtain ⟨hpiece, hrest⟩ := List.forall_mem_cons.1 hpieces
      have hcontent := ih hrest
      rcases (Language.mem_add ..).1 hpiece with ⟨c, ⟨hquote, hescape⟩, rfl⟩ | hpair
      · exact .plain hquote hescape hcontent
      · obtain ⟨_, _, rfl, ⟨c, -, rfl⟩, rfl⟩ := mem_one_mul.1 hpair
        exact .escaped c hcontent
  · intro h
    induction h with
    | nil => exact Language.nil_mem_kstar _
    | escaped c h ih =>
      have hpair : ['\\', c] ∈ one (· = '\\') * one (fun _ => True) :=
        mem_one_mul.2 ⟨'\\', [c], rfl, ⟨c, trivial, rfl⟩, rfl⟩
      exact mem_kstar_iff.2 (.inr (Language.mem_mul.2 ⟨_, .inr hpair, _, ih, rfl⟩))
    | @plain c cs hquote hescape h ih =>
      have hplain : [c] ∈ one (fun c => c ≠ '"' ∧ c ≠ '\\') := ⟨c, ⟨hquote, hescape⟩, rfl⟩
      exact mem_kstar_iff.2 (.inr (Language.mem_mul.2 ⟨_, .inl hplain, _, ih, rfl⟩))

/-- The words of the rule for texts are what is enclosed in quotes. -/
theorem mem_quoted_iff :
    cs ∈ quoted.language ↔ ∃ content, Lexeme.Enclosed content ∧ cs = '"' :: content ++ ['"'] := by
  rw [language, mul_assoc, mem_one_mul]
  constructor
  · rintro ⟨_, _, rfl, hrest, rfl⟩
    obtain ⟨content, hcontent, _, ⟨_, rfl, rfl⟩, rfl⟩ := Language.mem_mul.1 hrest
    exact ⟨content, mem_content_iff.1 hcontent, rfl⟩
  · rintro ⟨content, hcontent, rfl⟩
    refine ⟨'"', _, rfl, Language.mem_mul.2 ⟨content, mem_content_iff.2 hcontent, ['"'], ?_, rfl⟩,
      rfl⟩
    exact ⟨'"', rfl, rfl⟩

end Languages

/-! ## Where the rules apply -/

section Applies

variable {c : Char} {cs : List Char}

/-- Where the rule for delimiters applies. -/
theorem applies_delimiter_iff :
    delimiter.Applies (c :: cs) ↔ c ∈ ['(', ')', '{', '}'] := by
  constructor
  · rintro ⟨_, ⟨d, hd, rfl⟩, hfront⟩
    obtain ⟨rfl, -⟩ := List.cons_prefix_cons.1 hfront
    exact hd
  · intro hc
    exact ⟨[c], ⟨c, hc, rfl⟩, by simp⟩

/-- Where the rule for symbols applies. -/
theorem applies_symbol_iff : symbol.Applies (c :: cs) ↔ Lexeme.isSymbolChar c = true := by
  constructor
  · rintro ⟨front, hmem, hfront⟩
    obtain ⟨hne, hall⟩ := mem_symbol_iff.1 hmem
    obtain ⟨d, front, rfl⟩ := List.exists_cons_of_ne_nil hne
    obtain ⟨rfl, -⟩ := List.cons_prefix_cons.1 hfront
    exact hall d List.mem_cons_self
  · intro hc
    exact ⟨[c], mem_symbol_iff.2 ⟨by simp, by simpa using hc⟩, by simp⟩

/-- Where the rule for numbers applies. -/
theorem applies_number_iff :
    number.Applies (c :: cs) ↔
      c.isDigit = true ∨ c = '-' ∧ Lexeme.startsWithDigit cs = true := by
  constructor
  · rintro ⟨_, hmem, hfront⟩
    obtain ⟨⟨negative, whole, tenth, hne, hwhole, htenth⟩, rfl⟩ := mem_number_iff.1 hmem
    obtain ⟨d, whole, rfl⟩ := List.exists_cons_of_ne_nil hne
    have hd := hwhole d List.mem_cons_self
    cases negative with
    | false =>
      obtain ⟨rfl, -⟩ := List.cons_prefix_cons.1 hfront
      exact .inl hd
    | true =>
      obtain ⟨rfl, hrest⟩ := List.cons_prefix_cons.1 hfront
      obtain ⟨tail, rfl⟩ := hrest
      exact .inr ⟨rfl, hd⟩
  · rintro (hc | ⟨rfl, hdigit⟩)
    · exact ⟨[c], mem_number_iff.2 ⟨⟨false, [c], none, by simp, by simpa using hc, by simp⟩, rfl⟩,
        by simp⟩
    · cases cs with
      | nil => cases hdigit
      | cons d cs =>
        have hd : d.isDigit = true := hdigit
        exact ⟨['-', d], mem_number_iff.2
          ⟨⟨true, [d], none, by simp, by simpa using hd, by simp⟩, rfl⟩, by simp⟩

/-- Where the rule for texts applies. -/
theorem applies_quoted_iff :
    quoted.Applies (c :: cs) ↔ c = '"' ∧ (Lexeme.splitText? cs).isSome = true := by
  constructor
  · rintro ⟨_, hmem, tail, hfront⟩
    obtain ⟨content, hcontent, rfl⟩ := mem_quoted_iff.1 hmem
    simp only [List.cons_append, List.append_assoc, List.nil_append] at hfront
    obtain ⟨rfl, rfl⟩ := List.cons.inj hfront
    rw [Lexeme.splitText?_of_enclosed hcontent]
    exact ⟨rfl, rfl⟩
  · rintro ⟨rfl, hsome⟩
    obtain ⟨⟨content, rest⟩, hsplit⟩ := Option.isSome_iff_exists.1 hsome
    obtain ⟨hcontent, rfl⟩ := Lexeme.enclosed_of_splitText? hsplit
    exact ⟨_, mem_quoted_iff.2 ⟨content, hcontent, rfl⟩, rest, by simp⟩

end Applies

end LexicalRule

/-! ## What the rules take -/

/-- What is split off as a fraction is one digit or nothing. -/
theorem Lexeme.splitFraction_cases (cs : List Char) :
    (∃ d rest, d.isDigit = true ∧ splitFraction cs = ([d], rest)) ∨
      splitFraction cs = ([], cs) := by
  unfold splitFraction
  split
  · next d rest =>
    split
    · next hd => exact .inl ⟨d, rest, hd, rfl⟩
    · exact .inr rfl
  · exact .inr rfl

namespace Numeral

/-- Reading the digits of a numeral gives the decimal that it writes. -/
theorem writes_ofParts (n : Numeral) :
    n.Writes (Decimal.ofParts n.negative n.whole n.tenth.toList) := by
  constructor
  · rw [value]
    cases n.tenth with
    | none =>
      split <;> simp [*, Decimal.value, Decimal.ofParts, Decimal.valueOfChars_eq]
    | some c =>
      have hlast : Nat.ofDigitChars 10 (n.whole ++ [c]) 0
          = 10 * Nat.ofDigitChars 10 n.whole 0 + Nat.ofDigitChars 10 [c] 0 := by
        simp [Nat.ofDigitChars_append, Nat.ofDigitChars_cons]
      split <;> simp [*, Decimal.value, Decimal.ofParts, Decimal.valueOfChars_eq] <;> ring
  · cases n.tenth <;> rfl

variable {negative : Bool} {sign cs : List Char}

/-- A number that is cut off is a numeral. -/
theorem exists_cutNumber (hsign : sign = if negative then ['-'] else [])
    (hdigit : Lexeme.startsWithDigit cs = true) :
    ∃ n : Numeral, (Lexeme.cutNumber sign cs).text = n.chars ∧
      (Lexeme.cutNumber sign cs).reading
        = .ok (.atom (.number (Decimal.ofParts n.negative n.whole n.tenth.toList))) := by
  have hne : cs.takeWhile Char.isDigit ≠ [] := by
    cases cs with
    | nil => cases hdigit
    | cons c cs =>
      have hc : c.isDigit = true := hdigit
      simp [List.takeWhile_cons_of_pos hc]
  have hwhole : ∀ c ∈ cs.takeWhile Char.isDigit, c.isDigit = true :=
    List.all_eq_true.1 List.all_takeWhile
  have hnegative : (!sign.isEmpty) = negative := by
    cases negative <;> simp [hsign]
  rcases Lexeme.splitFraction_cases (cs.dropWhile Char.isDigit) with
    ⟨d, rest, hd, hsplit⟩ | hsplit
  · refine ⟨⟨negative, _, some d, hne, hwhole, by simpa using hd⟩, ?_, ?_⟩
    · simp [Lexeme.cutNumber, hsplit, chars, fraction, Numeral.sign, hsign]
    · simp [Lexeme.cutNumber, hsplit, hnegative]
  · refine ⟨⟨negative, _, none, hne, hwhole, by simp⟩, ?_, ?_⟩
    · simp [Lexeme.cutNumber, hsplit, chars, fraction, Numeral.sign, hsign]
    · simp [Lexeme.cutNumber, hsplit, hnegative]

/-- A sign is not a digit, so the numerals at the front of a text have the same sign or none. -/
theorem sign_eq_of_isPrefix (n : Numeral) (hsign : sign = if negative then ['-'] else [])
    (hdigit : Lexeme.startsWithDigit cs = true) (h : n.chars <+: sign ++ cs) : n.sign = sign := by
  obtain ⟨negative', whole, tenth, hne, hwhole, htenth⟩ := n
  obtain ⟨d, whole, rfl⟩ := List.exists_cons_of_ne_nil hne
  have hd := hwhole d List.mem_cons_self
  obtain ⟨c, cs, rfl⟩ : ∃ c cs', cs = c :: cs' := by
    cases cs with
    | nil => cases hdigit
    | cons c cs => exact ⟨c, cs, rfl⟩
  have hminus : '-'.isDigit = false := by decide
  cases negative <;> cases negative' <;> subst hsign
  · rfl
  · obtain ⟨rfl, -⟩ := List.cons_prefix_cons.1 h
    cases hminus.symm.trans hdigit
  · obtain ⟨rfl, -⟩ := List.cons_prefix_cons.1 h
    cases hminus.symm.trans hd
  · rfl

/-- No numeral at the front of a text is longer than the number that is cut off there. -/
theorem length_le_cutNumber (n : Numeral) (sign tail : List Char) :
    (sign ++ n.whole ++ n.fraction).length
      ≤ (Lexeme.cutNumber sign (n.whole ++ n.fraction ++ tail)).text.length := by
  obtain ⟨negative, whole, tenth, hne, hwhole, htenth⟩ := n
  cases tenth with
  | none =>
    -- The digits may go on after the numeral, and then the cut is longer.
    simp [Lexeme.cutNumber, fraction, List.takeWhile_append_of_pos hwhole]
  | some d =>
    -- The point ends the digits, so the cut is the numeral.
    have hd := htenth d rfl
    simp [Lexeme.cutNumber, fraction, List.takeWhile_append_of_pos hwhole,
      List.dropWhile_append_of_pos hwhole, Lexeme.splitFraction, hd]

end Numeral

namespace LexicalRule

variable {c : Char} {cs : List Char}

/-- The rule for delimiters takes one character. -/
theorem takes_delimiter (hc : c ∈ ['(', ')', '{', '}']) : delimiter.Takes [c] cs where
  first earlier hrank := by cases hrank
  mem := ⟨c, hc, rfl⟩
  longest := by
    rintro _ ⟨d, hd, rfl⟩ hfront
    exact Nat.le_refl 1

/-- A number is taken where a digit comes after the sign, if there is one. -/
theorem takes_number {negative : Bool} {sign : List Char}
    (hsign : sign = if negative then ['-'] else []) (hdigit : Lexeme.startsWithDigit cs = true)
    (hdelimiter : ¬ delimiter.Applies (sign ++ cs)) :
    number.Takes (Lexeme.cutNumber sign cs).text (Lexeme.cutNumber sign cs).rest where
  first := by
    intro earlier hrank
    rw [Lexeme.cutNumber_append]
    cases earlier with
    | delimiter => exact hdelimiter
    | number => exact absurd hrank (by decide)
    | symbol => exact absurd hrank (by decide)
    | quoted => exact absurd hrank (by decide)
  mem := by
    obtain ⟨n, htext, -⟩ := Numeral.exists_cutNumber hsign hdigit
    exact mem_number_iff.2 ⟨n, htext⟩
  longest := by
    intro front hmem hfront
    obtain ⟨n, rfl⟩ := mem_number_iff.1 hmem
    rw [Lexeme.cutNumber_append] at hfront
    obtain rfl := n.sign_eq_of_isPrefix hsign hdigit hfront
    obtain ⟨tail, htail⟩ := hfront
    have hcs : cs = n.whole ++ n.fraction ++ tail := by
      simpa [Numeral.chars] using htail.symm
    rw [hcs]
    exact n.length_le_cutNumber n.sign tail

/-- A symbol is a maximal run of the characters of symbols. -/
theorem takes_symbol (hsymbol : Lexeme.isSymbolChar c = true)
    (hdelimiter : ¬ delimiter.Applies (c :: cs)) (hnumber : ¬ number.Applies (c :: cs)) :
    symbol.Takes ((c :: cs).takeWhile Lexeme.isSymbolChar)
      ((c :: cs).dropWhile Lexeme.isSymbolChar) where
  first := by
    intro earlier hrank
    rw [List.takeWhile_append_dropWhile]
    cases earlier with
    | delimiter => exact hdelimiter
    | number => exact hnumber
    | symbol => exact absurd hrank (by decide)
    | quoted => exact absurd hrank (by decide)
  mem := by
    refine mem_symbol_iff.2 ⟨?_, List.all_eq_true.1 List.all_takeWhile⟩
    rw [List.takeWhile_cons_of_pos hsymbol]
    exact List.cons_ne_nil _ _
  longest := by
    intro front hmem hfront
    rw [List.takeWhile_append_dropWhile] at hfront
    obtain ⟨tail, htail⟩ := hfront
    rw [← htail, List.takeWhile_append_of_pos (mem_symbol_iff.1 hmem).2, List.length_append]
    omega

/-- At a quote only the rule of quoted texts can apply. -/
theorem not_applies_at_quote {rule : LexicalRule} (hrule : rule.rank < quoted.rank) :
    ¬ rule.Applies ('"' :: cs) := by
  cases rule with
  | delimiter => simp [applies_delimiter_iff]
  | number => simp [applies_number_iff]
  | symbol => simp [applies_symbol_iff, Lexeme.isSymbolChar]
  | quoted => exact absurd hrule (by decide)

/-- The quote that closes a text is the first one that can, so only one quoted text starts at a
quote. -/
theorem takes_quoted {content rest : List Char} (hcontent : Lexeme.Enclosed content) :
    quoted.Takes ('"' :: content ++ ['"']) rest where
  first earlier hrank := not_applies_at_quote hrank
  mem := mem_quoted_iff.2 ⟨content, hcontent, rfl⟩
  longest := by
    intro front hmem hfront
    obtain ⟨content', hcontent', rfl⟩ := mem_quoted_iff.1 hmem
    obtain ⟨tail, htail⟩ := hfront
    have hcs : content' ++ '"' :: tail = content ++ '"' :: rest := by
      simpa using htail
    have hsplit := congrArg Lexeme.splitText? hcs
    rw [Lexeme.splitText?_of_enclosed hcontent', Lexeme.splitText?_of_enclosed hcontent] at hsplit
    obtain ⟨rfl, -⟩ := Prod.mk.inj (Option.some.inj hsplit)
    exact Nat.le_refl _

end LexicalRule

/-! ## What the scan does -/

/-- The code of a fault. -/
def LexicalFault.code : LexicalFault → String
  | unexpected _ => "E0001"
  | unterminated => "E0002"

namespace Lexeme

/-- What the rules say about the front of a text: some rule takes it, or no rule applies. -/
inductive Judged : List Char → List Char → Except LexicalFault TokenKind → Prop
  | token {text rest : List Char} {kind : TokenKind} (rule : LexicalRule)
    (htakes : rule.Takes text rest) (hmeans : rule.Means text kind) : Judged text rest (.ok kind)
  | unexpected {c : Char} {rest : List Char} (hquote : c ≠ '"')
    (hnone : ∀ rule : LexicalRule, ¬ rule.Applies (c :: rest)) :
    Judged [c] rest (.error (.unexpected c))
  | unterminated {cs : List Char}
    (hnone : ∀ rule : LexicalRule, ¬ rule.Applies ('"' :: cs)) :
    Judged ('"' :: cs) [] (.error .unterminated)

/-- The token and the diagnostics that a judgement gives: a fault gives an invalid token, and one
diagnostic with its code and with the span of the token. -/
def Reported : Except LexicalFault TokenKind → Token → List Diagnostic → Prop
  | .ok kind, t, reports => t.kind = kind ∧ reports = []
  | .error fault, t, reports =>
    t.kind = .invalid ∧
      ∃ d : Diagnostic, reports = [d] ∧ d.span = t.span ∧ d.code.map Code.text = some fault.code

/-- The tokens of a text whose first character stands at byte offset `start`, and the diagnostics
about it. Before every lexeme stands a gap, and what follows the gap starts no gap. -/
inductive Tokenized : ℕ → List Char → List Token → List Diagnostic → Prop
  | last {start : ℕ} {gap : List Char} (hgap : Gap gap []) : Tokenized start gap [] []
  | next {start : ℕ} {gap text rest : List Char} {reading : Except LexicalFault TokenKind}
    {t : Token} {reports : List Diagnostic} {tokens : List Token} {diagnostics : List Diagnostic}
    (hgap : Gap gap (text ++ rest))
    (hclear : ∀ c, (text ++ rest).head? = some c → Text.isBlank c = false ∧ c ≠ ';')
    (hjudged : Judged text rest reading)
    (hspan : t.span = Span.ofOffsets (start + Source.byteLength gap)
      (start + Source.byteLength gap + Source.byteLength text))
    (hreported : Reported reading t reports)
    (h : Tokenized (start + Source.byteLength gap + Source.byteLength text) rest tokens
      diagnostics) :
    Tokenized start (gap ++ (text ++ rest)) (t :: tokens) (reports ++ diagnostics)

/-- A delimiter is read by its rule. -/
theorem judged_delimiter {c : Char} {rest : List Char} {kind : TokenKind}
    (hmeans : LexicalRule.delimiter.Means [c] kind) : Judged [c] rest (.ok kind) := by
  refine .token .delimiter (LexicalRule.takes_delimiter ?_) hmeans
  simp only [LexicalRule.Means, List.mem_cons, Prod.mk.injEq, List.cons.injEq] at hmeans
  grind

/-- A text is read by its rule, or it is not closed. -/
theorem judged_cutText (cs : List Char) :
    Judged (cutText cs).text (cutText cs).rest (cutText cs).reading := by
  unfold cutText
  split
  · next content rest hsplit =>
    exact .token .quoted (LexicalRule.takes_quoted (enclosed_of_splitText? hsplit).1)
      ⟨content, rfl, rfl⟩
  · next hsplit =>
    refine .unterminated ?_
    intro rule
    cases rule with
    | quoted => simp [LexicalRule.applies_quoted_iff, hsplit]
    | delimiter => exact LexicalRule.not_applies_at_quote (by decide)
    | number => exact LexicalRule.not_applies_at_quote (by decide)
    | symbol => exact LexicalRule.not_applies_at_quote (by decide)

/-- A number is read by its rule. -/
theorem judged_cutNumber (negative : Bool) {sign cs : List Char}
    (hsign : sign = if negative then ['-'] else []) (hdigit : startsWithDigit cs = true)
    (hdelimiter : ¬ LexicalRule.delimiter.Applies (sign ++ cs)) :
    Judged (cutNumber sign cs).text (cutNumber sign cs).rest (cutNumber sign cs).reading := by
  obtain ⟨n, htext, hreading⟩ := Numeral.exists_cutNumber hsign hdigit
  rw [hreading]
  exact .token .number (LexicalRule.takes_number hsign hdigit hdelimiter)
    ⟨n, _, htext, n.writes_ofParts, rfl⟩

/-- A cut does what the rules say. -/
theorem judged_cut (c : Char) (cs : List Char) :
    Judged (cut c cs).text (cut c cs).rest (cut c cs).reading := by
  unfold cut
  split
  · next hc =>
    obtain rfl := beq_iff_eq.1 hc
    exact judged_delimiter (by simp [LexicalRule.Means])
  next hopen =>
  split
  · next hc =>
    obtain rfl := beq_iff_eq.1 hc
    exact judged_delimiter (by simp [LexicalRule.Means])
  next hclose =>
  split
  · next hc =>
    obtain rfl := beq_iff_eq.1 hc
    exact judged_delimiter (by simp [LexicalRule.Means])
  next hopenBrace =>
  split
  · next hc =>
    obtain rfl := beq_iff_eq.1 hc
    exact judged_delimiter (by simp [LexicalRule.Means])
  next hcloseBrace =>
  have hdelimiter : ¬ LexicalRule.delimiter.Applies (c :: cs) := by
    simp_all [LexicalRule.applies_delimiter_iff]
  -- Quotes are tried before numbers here. That is the same, since no other rule applies at a quote.
  split
  · exact judged_cutText cs
  next hquote =>
  split
  · next hminus =>
    obtain ⟨hc, hdigit⟩ := Bool.and_eq_true_iff.1 hminus
    obtain rfl := beq_iff_eq.1 hc
    exact judged_cutNumber true rfl hdigit hdelimiter
  next hminus =>
  split
  · next hdigit => exact judged_cutNumber false rfl hdigit hdelimiter
  next hdigit =>
  have hnumber : ¬ LexicalRule.number.Applies (c :: cs) := by
    simp_all [LexicalRule.applies_number_iff]
  split
  · next hsymbol => exact .token .symbol (LexicalRule.takes_symbol hsymbol hdelimiter hnumber) rfl
  · next hsymbol =>
    have hc : c ≠ '"' := by simpa using hquote
    refine .unexpected hc ?_
    intro rule
    cases rule with
    | delimiter => exact hdelimiter
    | number => exact hnumber
    | symbol => simpa [LexicalRule.applies_symbol_iff] using hsymbol
    | quoted => simp [LexicalRule.applies_quoted_iff, hc]

/-- What follows a gap is no blank and no comment. -/
theorem clear_of_splitGap {cs gap rest : List Char} {c : Char}
    (h : splitGap false cs = (gap, c :: rest)) : Text.isBlank c = false ∧ c ≠ ';' := by
  have hnone := splitGap_of_splitGap h
  constructor
  · cases hblank : Text.isBlank c with
    | false => rfl
    | true => simp [splitGap, hblank] at hnone
  · rintro rfl
    simp only [splitGap, Bool.false_and, Bool.false_eq_true, if_false, beq_self_eq_true, if_true]
      at hnone
    split at hnone <;> cases hnone

/-- The token of a lexeme and its problem say how it was read. -/
theorem reported_token (l : Lexeme) : Reported l.reading l.token l.diagnostic?.toList := by
  unfold token diagnostic?
  rcases l.reading with (⟨c⟩ | _) | kind
  · exact ⟨rfl, _, rfl, rfl, rfl⟩
  · exact ⟨rfl, _, rfl, rfl, rfl⟩
  · exact ⟨rfl, rfl⟩

/-- The whole scan does what the rules say. -/
theorem tokenized_scanFrom (start : ℕ) (cs : List Char) :
    Tokenized start cs ((scanFrom start cs).map token)
      ((scanFrom start cs).filterMap diagnostic?) := by
  fun_induction scanFrom start cs with
  | case1 start cs gap hsplit =>
    have hgap := (gap_splitGap cs).1
    have hcs := splitGap_append false cs
    rw [hsplit] at hgap hcs
    rw [← hcs, List.append_nil]
    exact .last hgap
  | case2 start cs gap c rest hsplit here piece ih =>
    have hgap := (gap_splitGap cs).1
    have hcs := splitGap_append false cs
    rw [hsplit, ← cut_append c rest] at hgap hcs
    have hclear : ∀ d, (piece.text ++ piece.rest).head? = some d →
        Text.isBlank d = false ∧ d ≠ ';' := by
      rintro d hd
      rw [cut_append] at hd
      obtain rfl : c = d := Option.some.inj hd
      exact clear_of_splitGap hsplit
    rw [← hcs, List.map_cons, List.filterMap_eq_flatMap_toList, List.flatMap_cons,
      ← List.filterMap_eq_flatMap_toList]
    exact .next hgap hclear (judged_cut c rest) rfl
      (reported_token ⟨here, piece.text, piece.reading⟩) ih

end Lexeme

/-- The tokens of every source and the diagnostics about its lexemes are those that the rules give,
from the beginning of the source to its end. -/
theorem Token.tokenized_ofSource (source : String) :
    ∃ tokens : List Token, ofSource source = tokens ++ [endOf source] ∧
      Lexeme.Tokenized 0 source.toList tokens (diagnosticsOfSource source) :=
  ⟨_, rfl, Lexeme.tokenized_scanFrom 0 source.toList⟩

example : (Lexeme.scan "--5 a-5 1.566").map (fun l => String.ofList l.text)
    = ["--5", "a-5", "1.5", "66"] := by
  cbv

end QLisp
