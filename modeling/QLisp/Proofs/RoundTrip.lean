import QLisp.Eval.Program
import QLisp.Proofs.Balance

/-!
# Reading back what is written

The text of a value that was read from a source is read as that value again, alone in its source.
The text of an atom is cut off as that atom whatever follows it, as long as what follows cannot be a
part of it (`readings_atom`); a form is read as the tokens with which it is written
(`readings_form`); and these tokens determine the value of the form
(`ofForms_eq_of_yieldAll_eq`).
-/

set_option autoImplicit false

namespace QLisp

/-! ## Numbers -/

namespace Decimal

/-- A number is written with digits. -/
theorem isDigit_of_mem_digitChars {n : Nat} {c : Char} (h : c ∈ digitChars n) :
    c.isDigit = true := by
  rw [digitChars_eq] at h
  exact Nat.isDigit_of_mem_toDigits (by decide) (by decide) h

/-- Every number has a digit. -/
theorem digitChars_ne_nil (n : Nat) : digitChars n ≠ [] := by
  rw [digitChars_eq]
  exact Nat.toDigits_ne_nil

/-- Zeros in front do not change the value. -/
theorem valueOfChars_replicate_append (k n : Nat) :
    valueOfChars (List.replicate k '0' ++ digitChars n) = n := by
  rw [valueOfChars_eq, Nat.ofDigitChars_append, Nat.ofDigitChars_replicate_zero, Nat.mul_zero,
    ← valueOfChars_eq, valueOfChars_digitChars]

/-- With one fraction digit, a number is written as the digits before the point and the one after
it, and these digits write the number without its point. -/
theorem positional_one (n : Nat) :
    ∃ whole d, positional n 1 = whole ++ ['.', d] ∧ whole ≠ [] ∧
      (∀ c ∈ whole ++ [d], c.isDigit = true) ∧ valueOfChars (whole ++ [d]) = n := by
  obtain ⟨padded, hpadded⟩ : ∃ padded, padded =
      List.replicate (1 + 1 - (digitChars n).length) '0' ++ digitChars n := ⟨_, rfl⟩
  have hlength : 2 ≤ padded.length := by
    simp [hpadded]
    omega
  have hdigits : ∀ c ∈ padded, c.isDigit = true := by
    intro c hc
    rw [hpadded] at hc
    rcases List.mem_append.1 hc with hc | hc
    · rw [(List.mem_replicate.1 hc).2]
      decide
    · exact isDigit_of_mem_digitChars hc
  have hvalue : valueOfChars padded = n := by
    rw [hpadded, valueOfChars_replicate_append]
  have hsplit := List.take_append_drop (padded.length - 1) padded
  obtain ⟨d, hd⟩ : ∃ d, padded.drop (padded.length - 1) = [d] := by
    rw [← List.length_eq_one_iff, List.length_drop]
    omega
  rw [hd] at hsplit
  refine ⟨padded.take (padded.length - 1), d, ?_, ?_, ?_, ?_⟩
  · rw [positional]
    simp only [← hpadded, hd]
  · intro hnil
    have := congrArg List.length hnil
    simp at this
    omega
  · rw [hsplit]
    exact hdigits
  · rw [hsplit]
    exact hvalue

end Decimal

/-! ## Atoms -/

namespace Lexeme

/-- A text that cannot go on with an atom: it is empty, or starts with a character that stands in no
number and no symbol. -/
def Stops : List Char → Prop
  | [] => True
  | c :: _ => isSymbolChar c = false ∧ c ≠ '.'

/-- What a rule takes ends where no atom can go on. -/
theorem takeWhile_append_of_stops {p : Char → Bool} {cs rest : List Char}
    (hp : ∀ c, p c = true → isSymbolChar c = true) (hcs : ∀ c ∈ cs, p c = true)
    (hrest : Stops rest) :
    (cs ++ rest).takeWhile p = cs ∧ (cs ++ rest).dropWhile p = rest := by
  have hstop : rest.takeWhile p = [] ∧ rest.dropWhile p = rest := by
    cases rest with
    | nil => exact ⟨rfl, rfl⟩
    | cons c rest =>
      have hc : ¬ p c = true := by
        intro h
        exact Bool.false_ne_true (hrest.1.symm.trans (hp c h))
      exact ⟨List.takeWhile_cons_of_neg hc, List.dropWhile_cons_of_neg hc⟩
  rw [List.takeWhile_append_of_pos hcs, List.dropWhile_append_of_pos hcs, hstop.1, hstop.2,
    List.append_nil]
  exact ⟨rfl, rfl⟩

/-- A number without a point is cut off as a whole. -/
theorem cutNumber_whole (sign : List Char) {whole rest : List Char}
    (hwhole : ∀ c ∈ whole, c.isDigit = true) (hrest : Stops rest) :
    (cutNumber sign (whole ++ rest)).reading
        = .ok (.atom (.number (Decimal.ofParts (!sign.isEmpty) whole []))) ∧
      (cutNumber sign (whole ++ rest)).rest = rest := by
  obtain ⟨htake, hdrop⟩ := takeWhile_append_of_stops
    (fun c => isSymbolChar_of_isDigit) hwhole hrest
  have hfraction : splitFraction rest = ([], rest) := by
    cases rest with
    | nil => rfl
    | cons c rest => simp [splitFraction, hrest.2]
  unfold cutNumber
  rw [htake, hdrop, hfraction]
  exact ⟨rfl, rfl⟩

/-- Digits, a point and a digit are cut off as a number with one fraction digit, whatever
follows. -/
theorem cutNumber_fraction (sign : List Char) {whole : List Char} {d : Char} (rest : List Char)
    (hwhole : ∀ c ∈ whole, c.isDigit = true) (hd : d.isDigit = true) :
    (cutNumber sign (whole ++ '.' :: d :: rest)).reading
        = .ok (.atom (.number (Decimal.ofParts (!sign.isEmpty) whole [d]))) ∧
      (cutNumber sign (whole ++ '.' :: d :: rest)).rest = rest := by
  have hpoint : ¬ Char.isDigit '.' = true := by decide
  have htake : (whole ++ '.' :: d :: rest).takeWhile Char.isDigit = whole := by
    rw [List.takeWhile_append_of_pos hwhole, List.takeWhile_cons_of_neg hpoint, List.append_nil]
  have hdrop : (whole ++ '.' :: d :: rest).dropWhile Char.isDigit = '.' :: d :: rest := by
    rw [List.dropWhile_append_of_pos hwhole, List.dropWhile_cons_of_neg hpoint]
  have hfraction : splitFraction ('.' :: d :: rest) = ([d], rest) := by
    simp [splitFraction, hd]
  unfold cutNumber
  rw [htake, hdrop, hfraction]
  exact ⟨rfl, rfl⟩

/-- The characters of symbols lie between `!` and `z`. -/
theorem toNat_of_isSymbolChar {c : Char} (h : isSymbolChar c = true) :
    33 ≤ c.toNat ∧ c.toNat ≤ 122 := by
  unfold isSymbolChar at h
  rcases Bool.or_eq_true_iff.1 h with h | h
  · have hval : c.toNat = c.val.toNat := rfl
    simp [Char.isAlphanum, Char.isAlpha, Char.isUpper, Char.isLower, Char.isDigit,
      UInt32.le_iff_toNat_le] at h
    omega
  · have hall : ∀ d ∈ ['_', '+', '-', '*', '/', '\\', '=', '<', '>', '!', '&'],
        33 ≤ d.toNat ∧ d.toNat ≤ 122 := by simp
    exact hall c (List.contains_iff_mem.1 h)

/-- At a symbol character a lexeme is cut off. -/
theorem readings_symbolChar {c : Char} (cs : List Char) (h : isSymbolChar c = true) :
    readings (c :: cs) = (cut c cs).reading :: readings (cut c cs).rest := by
  obtain ⟨hlow, hhigh⟩ := toNat_of_isSymbolChar h
  refine readings_cut cs ?_ ?_
  · simp [Text.isBlank]
    omega
  · rintro rfl
    revert h
    decide

/-- Digits with or without a sign are cut off by the rule of numbers. -/
theorem readings_number (negative : Bool) {d : Char} (ds : List Char) (hd : d.isDigit = true) :
    readings ((if negative then ['-'] else []) ++ d :: ds)
      = (cutNumber (if negative then ['-'] else []) (d :: ds)).reading
        :: readings (cutNumber (if negative then ['-'] else []) (d :: ds)).rest := by
  cases negative with
  | true =>
    have hcut : cut '-' (d :: ds) = cutNumber ['-'] (d :: ds) := by
      rw [cut_of_isSymbolChar _ (by decide)]
      simp [startsWithDigit, hd]
    rw [if_pos rfl, List.singleton_append, readings_symbolChar _ (by decide), hcut]
  | false =>
    have hcut : cut d ds = cutNumber [] (d :: ds) := by
      have hminus : (d == '-') = false := by
        rw [beq_eq_false_iff_ne]
        rintro rfl
        revert hd
        decide
      rw [cut_of_isSymbolChar _ (isSymbolChar_of_isDigit hd)]
      simp [hminus, hd]
    rw [if_neg Bool.false_ne_true, List.nil_append,
      readings_symbolChar _ (isSymbolChar_of_isDigit hd), hcut]

/-- A number is known by its sign and the digits of its amount. -/
theorem ofParts_natAbs (n : Int) {whole fraction : List Char}
    (h : Decimal.valueOfChars (whole ++ fraction) = n.natAbs) :
    Decimal.ofParts (decide (n < 0)) whole fraction = ⟨n, fraction.length⟩ := by
  unfold Decimal.ofParts
  rw [h]
  dsimp only
  by_cases hn : n < 0
  · rw [decide_eq_true hn, if_pos rfl, Int.ofNat_natAbs_of_nonpos (Int.le_of_lt hn), Int.neg_neg]
  · rw [decide_eq_false hn, if_neg Bool.false_ne_true, Int.natAbs_of_nonneg (Int.not_lt.mp hn)]

/-- There is a sign exactly if the number is negative. -/
theorem isEmpty_sign (negative : Bool) :
    (!(if negative then ['-'] else [] : List Char).isEmpty) = negative := by
  cases negative <;> rfl

/-- An integer is read back. -/
theorem readings_whole (n : Int) {rest : List Char} (hrest : Stops rest) :
    readings ((⟨n, 0⟩ : Decimal).chars ++ rest)
      = .ok (.atom (.number ⟨n, 0⟩)) :: readings rest := by
  obtain ⟨d, ds, hdigits⟩ := List.exists_cons_of_ne_nil (Decimal.digitChars_ne_nil n.natAbs)
  have hchars : (⟨n, 0⟩ : Decimal).chars ++ rest
      = (if decide (n < 0) then ['-'] else []) ++ d :: (ds ++ rest) := by
    simp [Decimal.chars, hdigits]
  have hall : ∀ c ∈ d :: ds, c.isDigit = true := by
    intro c hc
    rw [← hdigits] at hc
    exact Decimal.isDigit_of_mem_digitChars hc
  obtain ⟨hreading, hafter⟩ :=
    cutNumber_whole (if decide (n < 0) then ['-'] else []) hall hrest
  have hvalue : Decimal.valueOfChars (d :: ds ++ []) = n.natAbs := by
    rw [List.append_nil, ← hdigits, Decimal.valueOfChars_digitChars]
  rw [hchars, readings_number _ _ (hall d List.mem_cons_self), ← List.cons_append, hreading, hafter,
    isEmpty_sign, ofParts_natAbs n hvalue]
  rfl

/-- A number with one place is read back. -/
theorem readings_fraction (n : Int) (rest : List Char) :
    readings ((⟨n, 1⟩ : Decimal).chars ++ rest)
      = .ok (.atom (.number ⟨n, 1⟩)) :: readings rest := by
  obtain ⟨whole, e, hpositional, hne, hall, hvalue⟩ := Decimal.positional_one n.natAbs
  obtain ⟨d, ds, rfl⟩ := List.exists_cons_of_ne_nil hne
  have hchars : (⟨n, 1⟩ : Decimal).chars ++ rest
      = (if decide (n < 0) then ['-'] else []) ++ d :: (ds ++ '.' :: e :: rest) := by
    simp [Decimal.chars, hpositional]
  have hwhole : ∀ c ∈ d :: ds, c.isDigit = true := fun c hc => hall c (List.mem_append_left _ hc)
  obtain ⟨hreading, hafter⟩ := cutNumber_fraction (if decide (n < 0) then ['-'] else []) rest hwhole
    (hall e (List.mem_append_right _ (List.mem_singleton.2 rfl)))
  rw [hchars, readings_number _ _ (hwhole d List.mem_cons_self), ← List.cons_append, hreading,
    hafter, isEmpty_sign, ofParts_natAbs n hvalue]
  rfl

/-- A symbol is read back. -/
theorem readings_symbol {name rest : List Char} (hname : IsName name) (hrest : Stops rest) :
    readings (name ++ rest) = .ok (.atom (.symbol (String.ofList name))) :: readings rest := by
  cases name with
  | nil => exact absurd hname id
  | cons c cs =>
    obtain ⟨hsymbol, hdigit, hminus, hall⟩ := hname
    have hsymbols : ∀ x ∈ c :: cs, isSymbolChar x = true := by
      intro x hx
      rcases List.mem_cons.1 hx with rfl | hx
      · exact hsymbol
      · exact hall x hx
    obtain ⟨htake, hdrop⟩ := takeWhile_append_of_stops (fun _ => id) hsymbols hrest
    have hsign : (c == '-' && startsWithDigit (cs ++ rest)) = false := by
      rw [Bool.and_eq_false_iff, beq_eq_false_iff_ne]
      by_cases hc : c = '-'
      · right
        cases cs with
        | nil =>
          cases rest with
          | nil => rfl
          | cons x rest =>
            by_contra hx
            have hx' : x.isDigit = true := by simpa [startsWithDigit] using hx
            exact Bool.false_ne_true (hrest.1.symm.trans (isSymbolChar_of_isDigit hx'))
        | cons x cs => simpa [startsWithDigit, hc] using hminus
      · exact .inl hc
    have hcut : cut c (cs ++ rest) = cutSymbol (c :: cs ++ rest) := by
      rw [cut_of_isSymbolChar _ hsymbol, hsign, hdigit]
      rfl
    rw [List.cons_append, readings_symbolChar _ hsymbol, hcut]
    unfold cutSymbol
    rw [htake, hdrop]

/-- A text is read back. -/
theorem readings_text {content : List Char} (h : Enclosed content) (rest : List Char) :
    readings ('"' :: content ++ '"' :: rest)
      = .ok (.atom (.text (String.ofList content))) :: readings rest := by
  have hcut : cut '"' (content ++ '"' :: rest) = cutText (content ++ '"' :: rest) := rfl
  rw [List.cons_append, readings_cut _ (by decide) (by decide), hcut]
  unfold cutText
  rw [splitText?_of_enclosed h rest]

/-- The text of an atom that can be read is read as this atom, whatever follows that cannot go on
with it. -/
theorem readings_atom {a : Atom} (ha : a.Lexical) {rest : List Char} (hrest : Stops rest) :
    readings ((Value.ofAtom a).render.toList ++ rest) = .ok (.atom a) :: readings rest := by
  cases a with
  | number n =>
    obtain ⟨digits, scale⟩ := n
    rcases ha with hscale | hscale
    · obtain rfl : scale = 0 := hscale
      simpa [Value.ofAtom, Value.render, Decimal.render] using readings_whole digits hrest
    · obtain rfl : scale = 1 := hscale
      simpa [Value.ofAtom, Value.render, Decimal.render] using readings_fraction digits rest
  | text content =>
    simpa [Value.ofAtom, Value.render] using readings_text ha rest
  | symbol name =>
    simpa [Value.ofAtom, Value.render] using readings_symbol ha hrest

/-! ## Forms -/

/-- At a blank no atom can go on. -/
theorem stops_blank (rest : List Char) : Stops (' ' :: rest) := by
  exact ⟨by decide, by decide⟩

/-- At a closing delimiter no atom can go on. -/
theorem stops_closing (d : Delimiter) (rest : List Char) : Stops (d.closing.toList ++ rest) := by
  cases d <;> exact ⟨by decide, by decide⟩

/-- An opening delimiter is read back. -/
theorem readings_opening (d : Delimiter) (rest : List Char) :
    readings (d.opening.toList ++ rest) = .ok (.opener d) :: readings rest := by
  cases d <;> exact readings_cut rest (by decide) (by decide)

/-- A closing delimiter is read back. -/
theorem readings_closing (d : Delimiter) (rest : List Char) :
    readings (d.closing.toList ++ rest) = .ok (.closer d) :: readings rest := by
  cases d <;> exact readings_cut rest (by decide) (by decide)

/-- A group is shown in its delimiters, with blanks between its items. -/
theorem render_ofForm_group (d : Delimiter) (items : List Form) (span : Span) :
    (Value.ofForm (.group d items span)).render
      = d.opening ++ " ".intercalate (Value.renderAll (Value.ofForms items)) ++ d.closing := by
  cases d with
  | paren => simp only [Value.ofForm, Value.render, Delimiter.opening, Delimiter.closing]
  | brace =>
    simp only [Value.ofForm, Value.render, Value.braced, Delimiter.opening, Delimiter.closing]

mutual

/-- The text of a form whose atoms can be read is read as the tokens of the form. -/
theorem readings_form (f : Form) (hf : ∀ k ∈ f.yield, k.Lexical) {rest : List Char}
    (hrest : Stops rest) :
    readings ((Value.ofForm f).render.toList ++ rest) = f.yield.map .ok ++ readings rest := by
  cases f with
  | atom a span =>
    rw [Form.yield] at hf ⊢
    rw [Value.ofForm, readings_atom (hf (.atom a) (List.mem_singleton.2 rfl)) hrest]
    rfl
  | group d items span =>
    rw [Form.yield] at hf ⊢
    have hitems : ∀ k ∈ Form.yieldAll items, k.Lexical := by
      intro k hk
      exact hf k (List.mem_append_left _ (List.mem_cons_of_mem _ hk))
    rw [render_ofForm_group, String.toList_append, String.toList_append, List.append_assoc,
      List.append_assoc, readings_opening, readings_forms items hitems (stops_closing d rest),
      readings_closing]
    simp

/-- Forms that are shown with blanks between them are read back. -/
theorem readings_forms (fs : List Form) (hfs : ∀ k ∈ Form.yieldAll fs, k.Lexical)
    {rest : List Char} (hrest : Stops rest) :
    readings ((" ".intercalate (Value.renderAll (Value.ofForms fs))).toList ++ rest)
      = (Form.yieldAll fs).map .ok ++ readings rest := by
  cases fs with
  | nil => rfl
  | cons f fs =>
    rw [Form.yieldAll] at hfs ⊢
    have hf : ∀ k ∈ f.yield, k.Lexical := fun k hk => hfs k (List.mem_append_left _ hk)
    have htail : ∀ k ∈ Form.yieldAll fs, k.Lexical := fun k hk => hfs k (List.mem_append_right _ hk)
    have hstep := readings_forms fs htail hrest
    cases fs with
    | nil =>
      simp only [Value.ofForms, Value.renderAll, String.intercalate_singleton]
      rw [readings_form f hf hrest]
      simp [Form.yieldAll]
    | cons g gs =>
      simp only [Value.ofForms, Value.renderAll, String.intercalate_cons_cons] at hstep ⊢
      have hblank : " ".toList = [' '] := rfl
      rw [String.toList_append, String.toList_append, hblank, List.append_assoc, List.append_assoc,
        List.singleton_append, readings_form f hf (stops_blank _), readings_blank _ (by decide),
        hstep, List.map_append, List.append_assoc]

end

end Lexeme

/-! ## Values -/

namespace Form

/-- What can stand after the tokens of some forms: nothing, or a closing delimiter. -/
def Ends : List TokenKind → Prop
  | [] => True
  | k :: _ => ∃ d, k = .closer d

/-- A form cannot stand where the forms of a group end. -/
theorem not_ends_yield (f : Form) (w : List TokenKind) : ¬ Ends (f.yield ++ w) := by
  cases f <;> simp [yield, Ends]

/-- The tokens of forms determine where the forms end and what their values are. -/
theorem ofForms_eq_of_yieldAll_append (fs gs : List Form) {u v : List TokenKind} (hu : Ends u)
    (hv : Ends v) (h : yieldAll fs ++ u = yieldAll gs ++ v) :
    Value.ofForms fs = Value.ofForms gs ∧ u = v := by
  match fs, gs with
  | [], [] => exact ⟨rfl, h⟩
  | [], g :: gs =>
    rw [yieldAll, yieldAll, List.nil_append, List.append_assoc] at h
    exact absurd (h ▸ hu) (not_ends_yield g _)
  | f :: fs, [] =>
    rw [yieldAll, yieldAll, List.nil_append, List.append_assoc] at h
    exact absurd (h ▸ hv) (not_ends_yield f _)
  | .atom a _ :: fs, .atom b _ :: gs =>
    simp only [yieldAll, yield, List.cons_append, List.nil_append, List.cons.injEq,
      TokenKind.atom.injEq] at h
    obtain ⟨rfl, h⟩ := h
    obtain ⟨hvalues, hends⟩ := ofForms_eq_of_yieldAll_append fs gs hu hv h
    exact ⟨by simp [Value.ofForms, Value.ofForm, hvalues], hends⟩
  | .atom a _ :: fs, .group e _ _ :: gs => simp [yieldAll, yield] at h
  | .group d _ _ :: fs, .atom b _ :: gs => simp [yieldAll, yield] at h
  | .group d items _ :: fs, .group e items' _ :: gs =>
    simp only [yieldAll, yield, List.cons_append, List.append_assoc, List.nil_append,
      List.cons.injEq, TokenKind.opener.injEq] at h
    obtain ⟨rfl, h⟩ := h
    have hcloser (w : List TokenKind) : Ends (.closer d :: w) := ⟨d, rfl⟩
    obtain ⟨hitems, hrest⟩ :=
      ofForms_eq_of_yieldAll_append items items' (hcloser _) (hcloser _) h
    obtain ⟨hvalues, hends⟩ :=
      ofForms_eq_of_yieldAll_append fs gs hu hv (List.cons.inj hrest).2
    refine ⟨?_, hends⟩
    cases d <;> simp [Value.ofForms, Value.ofForm, hitems, hvalues]

/-- Forms with the same token kinds have the same values. -/
theorem ofForms_eq_of_yieldAll_eq {fs gs : List Form} (h : yieldAll fs = yieldAll gs) :
    Value.ofForms fs = Value.ofForms gs := by
  have hnil : Ends [] := trivial
  have hends : yieldAll fs ++ [] = yieldAll gs ++ [] := by rw [h]
  exact (ofForms_eq_of_yieldAll_append fs gs hnil hnil hends).1

open Nesting in
mutual

/-- A form leaves the open kinds as they were. -/
theorem after_yield (f : Form) (stack : List Delimiter) : after stack f.yield = some stack := by
  cases f with
  | atom a span => rfl
  | group d items span =>
    rw [yield, List.cons_append, after_cons, next, Option.bind_some, after_append,
      after_yieldAll items, Option.bind_some, after_cons, next_closer_eq_some_iff.2 rfl]
    rfl

/-- Forms leave the open kinds as they were. -/
theorem after_yieldAll (fs : List Form) (stack : List Delimiter) :
    after stack (yieldAll fs) = some stack := by
  cases fs with
  | nil => rfl
  | cons f fs => rw [yieldAll, after_append, after_yield f, Option.bind_some, after_yieldAll fs]

end

end Form

namespace Program

open FrameMachine

/-- A source without problems is read as its forms. -/
theorem read_of_clean {source : String} (h : (SourceFile.ofSource source).2 = []) :
    read source = .ok (SourceFile.ofSource source).1.toValue := by
  unfold read parse
  generalize SourceFile.ofSource source = answer at h ⊢
  obtain ⟨file, diagnostics⟩ := answer
  obtain rfl : diagnostics = [] := h
  rfl

/-- What is read are the forms of a source without problems. -/
theorem clean_of_read {source : String} {v : Value} (h : read source = .ok v) :
    (SourceFile.ofSource source).2 = [] ∧ v = (SourceFile.ofSource source).1.toValue := by
  unfold read parse at h
  generalize SourceFile.ofSource source = answer at h ⊢
  obtain ⟨file, diagnostics⟩ := answer
  cases diagnostics with
  | nil => exact ⟨rfl, (Except.ok.inj h).symm⟩
  | cons first others => cases h

/-- A text is read as one S-expression of the values of some forms if it is read as the tokens of
these forms. -/
theorem read_of_readings {source : String} (fs : List Form)
    (h : Lexeme.readings source.toList = (Form.yieldAll fs).map .ok) :
    read source = .ok (.sexpr (Value.ofForms fs)) := by
  have hkinds : (beforeEnd (Token.ofSource source)).map Token.kind = Form.yieldAll fs := by
    rw [beforeEnd_ofSource]
    exact Lexeme.map_kind_of_map_reading h
  have hvalid : ∀ t ∈ Token.ofSource source, t.kind ≠ .invalid :=
    (Token.diagnosticsOfSource_eq_nil_iff source).1 (Token.ofSource_of_readings h).2
  have hclean : (SourceFile.ofSource source).2 = [] := by
    rw [SourceFile.diagnostics_ofSource_eq_nil_iff, hkinds]
    exact ⟨hvalid, Form.after_yieldAll fs []⟩
  have hyield := SourceFile.yieldAll_ofSource hclean
  rw [hkinds] at hyield
  rw [read_of_clean hclean, SourceFile.toValue, Form.ofForms_eq_of_yieldAll_eq hyield]

/-- What a source is read as are the values of forms whose atoms can be read. -/
theorem exists_forms_of_read {source : String} {v : Value} (h : read source = .ok v) :
    ∃ fs, v = .sexpr (Value.ofForms fs) ∧ ∀ k ∈ Form.yieldAll fs, k.Lexical := by
  obtain ⟨hclean, hv⟩ := clean_of_read h
  refine ⟨(SourceFile.ofSource source).1.forms, hv, ?_⟩
  intro k hk
  rw [SourceFile.yieldAll_ofSource hclean, beforeEnd_ofSource, List.map_map] at hk
  obtain ⟨l, hl, rfl⟩ := List.mem_map.1 hk
  have hvalid : l.token.kind ≠ .invalid := by
    refine ((SourceFile.diagnostics_ofSource_eq_nil_iff source).1 hclean).1 l.token ?_
    exact List.mem_append_left _ (List.mem_map_of_mem hl)
  cases hreading : l.reading with
  | error fault => simp [Lexeme.token, hreading] at hvalid
  | ok kind =>
    have hlexical := Lexeme.lexical_of_mem_scanFrom hl hreading
    simpa [Lexeme.token, hreading] using hlexical

/-- The text of a form whose atoms can be read is read as the value of this form alone. -/
theorem read_render_form {f : Form} (hf : ∀ k ∈ f.yield, k.Lexical) :
    read (Value.ofForm f).render = .ok (.sexpr [Value.ofForm f]) := by
  have hstops : Lexeme.Stops [] := trivial
  have hreadings := Lexeme.readings_form f hf hstops
  refine read_of_readings [f] ?_
  simpa [Form.yieldAll] using hreadings

end Program

namespace Form

/-- The delimiters of a group are token kinds of a source. -/
theorem lexical_yield_group {items : List Form} (h : ∀ k ∈ yieldAll items, k.Lexical)
    (d : Delimiter) (span : Span) : ∀ k ∈ (group d items span).yield, k.Lexical := by
  intro k hk
  rw [yield] at hk
  simp only [List.cons_append, List.mem_cons, List.mem_append, List.not_mem_nil, or_false] at hk
  rcases hk with rfl | hk | rfl
  · trivial
  · exact h k hk
  · trivial

mutual

/-- The values in the value of a form are values of forms inside of it. -/
theorem exists_form_of_mem_preorder (f : Form) {n depth : Nat} {v : Value}
    (h : (depth, v) ∈ (Value.ofForm f).preorder n) :
    ∃ g : Form, v = Value.ofForm g ∧ ∀ k ∈ g.yield, k ∈ f.yield := by
  cases f with
  | atom a span =>
    have hself : (Value.ofForm (.atom a span)).preorder n
        = [(n, Value.ofForm (.atom a span))] := by
      cases a <;> rfl
    rw [hself, List.mem_singleton] at h
    exact ⟨.atom a span, congrArg Prod.snd h, fun k hk => hk⟩
  | group d items span =>
    have hcases : (depth, v) = (n, Value.ofForm (.group d items span)) ∨
        (depth, v) ∈ Value.preorderAll (n + 1) (Value.ofForms items) := by
      cases d <;> simpa [Value.ofForm, Value.preorder] using h
    rcases hcases with hself | hinside
    · exact ⟨.group d items span, congrArg Prod.snd hself, fun k hk => hk⟩
    · obtain ⟨g, hg, hyield⟩ := exists_form_of_mem_preorderAll items hinside
      refine ⟨g, hg, fun k hk => ?_⟩
      rw [yield]
      exact List.mem_append_left _ (List.mem_cons_of_mem _ (hyield k hk))

/-- A value inside of others that come from forms comes from a form. -/
theorem exists_form_of_mem_preorderAll (fs : List Form) {n depth : Nat} {v : Value}
    (h : (depth, v) ∈ Value.preorderAll n (Value.ofForms fs)) :
    ∃ g : Form, v = Value.ofForm g ∧ ∀ k ∈ g.yield, k ∈ yieldAll fs := by
  cases fs with
  | nil => simp [Value.ofForms, Value.preorderAll] at h
  | cons f fs =>
    rw [Value.ofForms, Value.preorderAll] at h
    rw [yieldAll]
    rcases List.mem_append.1 h with h | h
    · obtain ⟨g, hg, hyield⟩ := exists_form_of_mem_preorder f h
      exact ⟨g, hg, fun k hk => List.mem_append_left _ (hyield k hk)⟩
    · obtain ⟨g, hg, hyield⟩ := exists_form_of_mem_preorderAll fs h
      exact ⟨g, hg, fun k hk => List.mem_append_right _ (hyield k hk)⟩

end

end Form

/-- A value that some source is read as, or that stands in such a value. -/
def Value.FromSource (v : Value) : Prop :=
  ∃ source whole depth, Program.read source = .ok whole ∧ (depth, v) ∈ whole.preorder 0

namespace Value

/-- The values of forms are together the value of a group. -/
theorem sexpr_ofForms (fs : List Form) : sexpr (ofForms fs) = ofForm (.group .paren fs .origin) :=
  rfl

/-- A value from a source is that of a form. -/
theorem exists_form_of_fromSource {v : Value} (h : v.FromSource) :
    ∃ f : Form, v = ofForm f ∧ ∀ k ∈ f.yield, k.Lexical := by
  obtain ⟨source, whole, depth, hread, hmem⟩ := h
  obtain ⟨fs, rfl, hlexical⟩ := Program.exists_forms_of_read hread
  rw [sexpr_ofForms] at hmem
  obtain ⟨f, hf, hyield⟩ := Form.exists_form_of_mem_preorder _ hmem
  refine ⟨f, hf, fun k hk => ?_⟩
  exact Form.lexical_yield_group hlexical .paren .origin k (hyield k hk)

/-- Values from sources are those of forms. -/
theorem exists_forms_of_fromSource {vs : List Value} (h : ∀ v ∈ vs, v.FromSource) :
    ∃ fs : List Form, vs = ofForms fs ∧ ∀ k ∈ Form.yieldAll fs, k.Lexical := by
  induction vs with
  | nil => exact ⟨[], rfl, by simp [Form.yieldAll]⟩
  | cons v vs ih =>
    obtain ⟨f, hf, hlexical⟩ := exists_form_of_fromSource (h v List.mem_cons_self)
    obtain ⟨fs, hfs, hall⟩ := ih fun w hw => h w (List.mem_cons_of_mem _ hw)
    refine ⟨f :: fs, by rw [ofForms, hf, hfs], fun k hk => ?_⟩
    rw [Form.yieldAll] at hk
    rcases List.mem_append.1 hk with hk | hk
    · exact hlexical k hk
    · exact hall k hk

/-- A lambda is written as the call that makes it. -/
theorem render_lambda (params : List String) (body : List Value) (captured : Scope) :
    (lambda params body captured).render
      = (sexpr [symbol "\\", qexpr (params.map symbol), qexpr body]).render := by
  have hparams : renderAll (params.map symbol) = params := by
    induction params with
    | nil => rfl
    | cons p ps ih => rw [List.map_cons, renderAll, ih, render]
  simp only [render, renderAll, hparams, String.intercalate_cons_cons,
    String.intercalate_singleton]
  rw [← String.toList_inj]
  simp

end Value

namespace Program

/-- What was read from a source is read again from its own text: the text of a value is read as this
value alone, and the text of a lambda with parameters and a body from sources as the call that makes
it. -/
theorem read_render_of_read :
    (∀ (source : String) (v : Value), read source = .ok v →
      read v.render = .ok (.sexpr [v])) ∧
    ∀ (params : List String) (body : List Value) (captured : Scope),
      (∀ p ∈ params, (Value.symbol p).FromSource) → (∀ v ∈ body, v.FromSource) →
      read (Value.lambda params body captured).render
        = .ok (.sexpr [.sexpr [.symbol "\\", .qexpr (params.map .symbol), .qexpr body]]) := by
  constructor
  · intro source v h
    obtain ⟨fs, rfl, hlexical⟩ := exists_forms_of_read h
    rw [Value.sexpr_ofForms]
    exact read_render_form (Form.lexical_yield_group hlexical .paren .origin)
  · intro params body captured hparams hbody
    have hsymbols : ∀ v ∈ params.map Value.symbol, v.FromSource := by
      intro v hv
      obtain ⟨p, hp, rfl⟩ := List.mem_map.1 hv
      exact hparams p hp
    obtain ⟨names, hnames, hnamesLexical⟩ := Value.exists_forms_of_fromSource hsymbols
    obtain ⟨items, hitems, hitemsLexical⟩ := Value.exists_forms_of_fromSource hbody
    have hwhole : Value.sexpr [.symbol "\\", .qexpr (params.map .symbol), .qexpr body]
        = Value.ofForm (.group .paren [.atom (.symbol "\\") .origin,
            .group .brace names .origin, .group .brace items .origin] .origin) := by
      rw [hnames, hitems]
      rfl
    rw [Value.render_lambda, hwhole]
    refine read_render_form (Form.lexical_yield_group ?_ .paren .origin)
    intro k hk
    simp only [Form.yieldAll, List.append_nil, List.mem_append] at hk
    rcases hk with hk | hk | hk
    · rw [Form.yield, List.mem_singleton] at hk
      rw [hk]
      exact ⟨by decide, by decide, by decide, by simp⟩
    · exact Form.lexical_yield_group hnamesLexical .brace .origin k hk
    · exact Form.lexical_yield_group hitemsLexical .brace .origin k hk

/-- A sign alone, a zero with a sign and a fraction, leading zeros, an escaped quote and a text that
looks like a comment are all read again as they were. -/
theorem read_render_of_read_mixed :
    read (Value.sexpr [.sexpr [.symbol "-", .number ⟨0, 1⟩, .number ⟨7, 0⟩],
        .qexpr [.text "a;\\\"b)"]]).render
      = .ok (.sexpr [.sexpr [.sexpr [.symbol "-", .number ⟨0, 1⟩, .number ⟨7, 0⟩],
          .qexpr [.text "a;\\\"b)"]]]) ∧
    read (Value.lambda ["x"] [.symbol "x"] ⟨0, []⟩).render
      = .ok (.sexpr [.sexpr [.symbol "\\", .qexpr [.symbol "x"], .qexpr [.symbol "x"]]]) := by
  constructor
  · exact read_render_of_read.1 "(- -0.0 007) \x7b\"a;\\\"b)\"\x7d" _ (by cbv)
  · have hx : (Value.symbol "x").FromSource :=
      ⟨"x", .sexpr [.symbol "x"], 1, by cbv, by simp [Value.preorder, Value.preorderAll]⟩
    exact read_render_of_read.2 ["x"] [.symbol "x"] ⟨0, []⟩ (by simpa using hx) (by simpa using hx)

end Program

end QLisp
