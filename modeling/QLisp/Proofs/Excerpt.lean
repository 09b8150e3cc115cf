import QLisp.Proofs.Scan

/-!
# The lexemes of a part of a text

Whether a rule of the scan takes a character depends on the characters that follow, so a lexeme may
be cut differently when the text after it changes. It is not when the text after it is only made
shorter: a cut that leaves a tail untouched is the same cut without that tail (`IgnoresTail.cut`).
So consecutive lexemes of a text are the lexemes of the part that they span (`scanFrom_infix`), at
offsets that count from the start of that part (`scanFrom_add`).
-/

set_option autoImplicit false

namespace QLisp

/-- Every character takes a byte at least. -/
theorem Source.byteLength_pos {cs : List Char} (h : cs ≠ []) : 0 < byteLength cs := by
  cases cs with
  | nil => exact absurd rfl h
  | cons c cs =>
    have hsize := c.utf8Size_pos
    rw [byteLength_cons]
    omega

namespace Lexeme

/-- The byte offset after the last character of a lexeme. -/
def stop (l : Lexeme) : Nat :=
  l.start + Source.byteLength l.text

/-! ## Nothing is lost -/

/-- Splitting off a fraction loses nothing. -/
theorem splitFraction_append (cs : List Char) :
    (if (splitFraction cs).1.isEmpty then [] else ['.']) ++ (splitFraction cs).1
      ++ (splitFraction cs).2 = cs := by
  unfold splitFraction
  split
  · split <;> rfl
  · rfl

/-- Cutting a number off loses nothing. -/
theorem cutNumber_append (sign cs : List Char) :
    (cutNumber sign cs).text ++ (cutNumber sign cs).rest = sign ++ cs := by
  have hfraction := splitFraction_append (cs.dropWhile Char.isDigit)
  have hwhole := List.takeWhile_append_dropWhile (p := Char.isDigit) (l := cs)
  rw [← hfraction] at hwhole
  simp only [List.append_assoc] at hwhole
  simp only [cutNumber, List.append_assoc, hwhole]

/-- Cutting a text off loses nothing. -/
theorem cutText_append (cs : List Char) :
    (cutText cs).text ++ (cutText cs).rest = '"' :: cs := by
  unfold cutText
  split
  · next hsplit => simp [(enclosed_of_splitText? hsplit).2]
  · simp

/-- Nothing is lost when a lexeme is cut off. -/
theorem cut_append (c : Char) (cs : List Char) : (cut c cs).text ++ (cut c cs).rest = c :: cs := by
  unfold cut
  split; · rfl
  split; · rfl
  split; · rfl
  split; · rfl
  split
  · next hquote => rw [cutText_append, beq_iff_eq.1 hquote]
  split
  · next hminus =>
    rw [cutNumber_append, beq_iff_eq.1 (Bool.and_eq_true_iff.1 hminus).1, List.singleton_append]
  split
  · exact cutNumber_append [] (c :: cs)
  split
  · exact List.takeWhile_append_dropWhile
  · rfl

/-- Every lexeme has a character. -/
theorem text_cut_ne_nil (c : Char) (cs : List Char) : (cut c cs).text ≠ [] := by
  intro hnil
  have happend := congrArg List.length (cut_append c cs)
  have hle := length_cut_le c cs
  simp [hnil] at happend
  omega

/-! ## Without a tail -/

section Tail

variable {cs tail rest : List Char}

/-- A run of characters that ends before the tail ends at the same place without the tail. -/
theorem takeWhile_of_append {p : Char → Bool} (h : (cs ++ tail).dropWhile p = rest ++ tail) :
    cs.takeWhile p = (cs ++ tail).takeWhile p ∧ cs.dropWhile p = rest := by
  induction cs with
  | nil =>
    have hall := List.takeWhile_append_dropWhile (p := p) (l := tail)
    rw [List.nil_append] at h ⊢
    rw [h, ← List.append_assoc, List.append_left_eq_self, List.append_eq_nil_iff] at hall
    simp [hall]
  | cons c cs ih =>
    rw [List.cons_append] at h ⊢
    by_cases hc : p c = true
    · rw [List.dropWhile_cons_of_pos hc] at h
      obtain ⟨htake, hdrop⟩ := ih h
      rw [List.takeWhile_cons_of_pos hc, List.takeWhile_cons_of_pos hc,
        List.dropWhile_cons_of_pos hc, htake, hdrop]
      exact ⟨rfl, rfl⟩
    · rw [List.dropWhile_cons_of_neg hc, ← List.cons_append] at h
      rw [List.takeWhile_cons_of_neg hc, List.takeWhile_cons_of_neg hc,
        List.dropWhile_cons_of_neg hc, List.append_cancel_right h]
      exact ⟨rfl, rfl⟩

/-- A gap before a character does not depend on what comes far behind it. -/
theorem splitGap_of_append {inComment : Bool} {gap : List Char} {c : Char}
    (h : splitGap inComment (cs ++ tail) = (gap, c :: rest ++ tail)) :
    splitGap inComment cs = (gap, c :: rest) := by
  induction cs generalizing inComment gap with
  | nil =>
    have hlength := length_of_splitGap h
    simp only [List.nil_append, List.length_append, List.length_cons] at hlength
    omega
  | cons d cs ih =>
    rw [List.cons_append] at h
    unfold splitGap at h ⊢
    split at h
    · next hopen =>
      obtain ⟨rfl, hrest⟩ := Prod.mk.inj h
      rw [if_pos hopen, ih (Prod.ext rfl hrest)]
    next hopen =>
    rw [if_neg hopen]
    split at h
    · next hblank =>
      obtain ⟨rfl, hrest⟩ := Prod.mk.inj h
      rw [if_pos hblank, ih (Prod.ext rfl hrest)]
    next hblank =>
    rw [if_neg hblank]
    split at h
    · next hsemicolon =>
      obtain ⟨rfl, hrest⟩ := Prod.mk.inj h
      rw [if_pos hsemicolon, ih (Prod.ext rfl hrest)]
    · next hsemicolon =>
      obtain ⟨rfl, hrest⟩ := Prod.mk.inj h
      rw [if_neg hsemicolon, List.append_cancel_right ((List.cons_append ..).trans hrest)]

/-- Without a point there is no fraction. -/
theorem splitFraction_of_ne {c : Char} (cs : List Char) (h : c ≠ '.') :
    splitFraction (c :: cs) = ([], c :: cs) := by
  unfold splitFraction
  split
  · next heq => exact absurd (List.cons.inj heq).1 h
  · rfl

/-- Without the tail the character after a point may be gone, but then it was no digit: otherwise
the fraction would reach into the tail. -/
theorem splitFraction_of_append {fraction : List Char}
    (h : splitFraction (cs ++ tail) = (fraction, rest ++ tail)) :
    splitFraction cs = (fraction, rest) := by
  cases cs with
  | nil =>
    have hall := splitFraction_append tail
    rw [List.nil_append] at h
    rw [h, ← List.append_assoc, List.append_left_eq_self, List.append_eq_nil_iff,
      List.append_eq_nil_iff] at hall
    obtain ⟨⟨-, rfl⟩, rfl⟩ := hall
    rfl
  | cons c cs =>
    by_cases hc : c = '.'
    · subst hc
      cases cs with
      | nil =>
        cases tail with
        | nil => simpa [splitFraction] using h
        | cons d tail =>
          by_cases hd : d.isDigit = true
          · have hlength := congrArg (fun p => p.2.length) h
            simp [splitFraction, hd] at hlength
            omega
          · simp only [List.singleton_append, splitFraction, if_neg hd] at h
            obtain ⟨rfl, hrest⟩ := Prod.mk.inj h
            rw [← List.append_cancel_right ((List.singleton_append ..).trans hrest)]
            rfl
      | cons d cs =>
        simp only [List.cons_append, splitFraction] at h ⊢
        split at h
        · next hd =>
          obtain ⟨rfl, hrest⟩ := Prod.mk.inj h
          rw [if_pos hd, List.append_cancel_right hrest]
        · next hd =>
          obtain ⟨rfl, hrest⟩ := Prod.mk.inj h
          simp only [← List.cons_append] at hrest
          rw [if_neg hd, List.append_cancel_right hrest]
    · rw [List.cons_append, splitFraction_of_ne _ hc] at h
      obtain ⟨rfl, hrest⟩ := Prod.mk.inj h
      rw [splitFraction_of_ne _ hc, List.append_cancel_right ((List.cons_append ..).trans hrest)]

end Tail

/-- A rule that cuts off a lexeme in the same way when some of the text after the lexeme is taken
away. -/
def IgnoresTail (rule : List Char → Cut) : Prop :=
  ∀ ⦃cs tail rest : List Char⦄, (rule (cs ++ tail)).rest = rest ++ tail →
    rule cs = { rule (cs ++ tail) with rest }

namespace IgnoresTail

/-- A rule that takes one character looks no further. -/
theorem single (reading : Except LexicalFault TokenKind) (c : Char) :
    IgnoresTail fun cs => ⟨reading, [c], cs⟩ := by
  intro cs tail rest h
  rw [List.append_cancel_right h]

/-- A rule that takes one more character first. -/
theorem cons {rule : List Char → Cut} (h : IgnoresTail rule) (c : Char) :
    IgnoresTail fun cs => rule (c :: cs) := by
  intro cs tail rest hrest
  exact @h (c :: cs) tail rest hrest

/-- A choice between two rules. -/
theorem ite {rule other : List Char → Cut} (b : Bool) (h : IgnoresTail rule)
    (h' : IgnoresTail other) : IgnoresTail fun cs => if b then rule cs else other cs := by
  cases b with
  | true => exact h
  | false => exact h'

/-- The rule for symbols looks no further than they go. -/
theorem symbol : IgnoresTail cutSymbol := by
  intro cs tail rest h
  obtain ⟨htake, hdrop⟩ := takeWhile_of_append h
  simp only [cutSymbol, htake, hdrop]

/-- The rule for texts looks no further than they go. -/
theorem text : IgnoresTail cutText := by
  intro cs tail rest h
  unfold cutText at h
  cases hsplit : splitText? (cs ++ tail) with
  | none =>
    rw [hsplit] at h
    obtain ⟨rfl, rfl⟩ := List.append_eq_nil_iff.1 h.symm
    rw [List.append_nil] at hsplit ⊢
    simp only [cutText, hsplit]
  | some parts =>
    obtain ⟨content, after⟩ := parts
    rw [hsplit] at h
    obtain rfl : after = rest ++ tail := h
    obtain ⟨henclosed, hcs⟩ := enclosed_of_splitText? hsplit
    rw [← List.cons_append, ← List.append_assoc] at hcs
    rw [List.append_cancel_right hcs]
    simp only [cutText, splitText?_of_enclosed henclosed, List.append_assoc, List.cons_append]

/-- The rule for numbers looks no further than they go. -/
theorem number (sign : List Char) : IgnoresTail (cutNumber sign) := by
  intro cs tail rest h
  have hrest : (splitFraction ((cs ++ tail).dropWhile Char.isDigit)).2 = rest ++ tail := h
  -- The digits end before the tail too, since what comes after them does.
  obtain ⟨after, hafter⟩ : ∃ after, (cs ++ tail).dropWhile Char.isDigit = after ++ tail := by
    have hall := splitFraction_append ((cs ++ tail).dropWhile Char.isDigit)
    rw [hrest, ← List.append_assoc] at hall
    exact ⟨_, hall.symm⟩
  obtain ⟨htake, hdrop⟩ := takeWhile_of_append hafter
  rw [hafter] at hrest
  have hsplit := splitFraction_of_append (Prod.ext rfl hrest)
  simp only [cutNumber, htake, hdrop, hafter, hsplit]

/-- Whether a sign starts a number depends on the next character. Without the tail it is the same
one, unless the tail starts with it; then it is no digit, since the lexeme ends before the tail. -/
theorem signed {rule : List Char → Cut} (h : IgnoresTail rule) (b : Bool) :
    IgnoresTail fun cs => if b && startsWithDigit cs then cutNumber ['-'] cs else rule cs := by
  cases b with
  | false => exact h
  | true =>
    intro cs tail rest hrest
    simp only [Bool.true_and] at hrest ⊢
    cases cs with
    | cons c cs =>
      have hsame : startsWithDigit (c :: cs ++ tail) = startsWithDigit (c :: cs) := rfl
      rw [hsame] at hrest ⊢
      exact ite _ (number ['-']) h hrest
    | nil =>
      cases hdigit : startsWithDigit ([] ++ tail) with
      | false =>
        rw [hdigit, if_neg Bool.false_ne_true] at hrest
        simpa [startsWithDigit] using h hrest
      | true =>
        rw [hdigit, if_pos rfl] at hrest
        cases tail with
        | nil => cases hdigit
        | cons d tail =>
          have hd : d.isDigit = true := by simpa [startsWithDigit] using hdigit
          have hshort := length_cutNumber_le ['-'] (d :: tail)
          have hdrop := (List.dropWhile_sublist Char.isDigit (l := tail)).length_le
          rw [List.nil_append] at hrest
          rw [hrest, List.dropWhile_cons_of_pos hd, List.length_append, List.length_cons] at hshort
          omega

/-- A lexeme that ends before a tail is cut off in the same way without the tail. -/
theorem cut (c : Char) : IgnoresTail (cut c) := by
  have hsymbol : IgnoresTail fun cs =>
      if isSymbolChar c then cutSymbol (c :: cs) else ⟨.error (.unexpected c), [c], cs⟩ :=
    ite _ (symbol.cons c) (single _ c)
  have hnumber := signed (ite c.isDigit ((number []).cons c) hsymbol) (c == '-')
  unfold Lexeme.cut
  exact ite _ (single _ c) (ite _ (single _ c) (ite _ (single _ c) (ite _ (single _ c)
    (ite _ text hnumber))))

end IgnoresTail

/-! ## Where lexemes stand -/

/-- A lexeme that stands `k` bytes further on. -/
def shift (k : Nat) (l : Lexeme) : Lexeme :=
  { l with start := k + l.start }

/-- The lexemes of a text that stands `k` bytes further on stand `k` bytes further on. -/
theorem scanFrom_add (k start : Nat) (cs : List Char) :
    scanFrom (k + start) cs = (scanFrom start cs).map (shift k) := by
  fun_induction scanFrom start cs with
  | case1 start cs gap hgap => rw [scanFrom_of_gap _ hgap, List.map_nil]
  | case2 start cs gap c rest hgap here piece ih =>
    rw [scanFrom_of_cut _ hgap, List.map_cons, ← ih, Nat.add_assoc, Nat.add_assoc]
    rfl

/-- Every lexeme lies in the source and is not empty. -/
theorem bounds_of_mem_scanFrom {start : Nat} {cs : List Char} {l : Lexeme}
    (hl : l ∈ scanFrom start cs) :
    start ≤ l.start ∧ l.start < l.stop ∧ l.stop ≤ start + Source.byteLength cs := by
  fun_induction scanFrom start cs with
  | case1 => cases hl
  | case2 start cs gap c rest hgap here piece ih =>
    have hcs : gap ++ (piece.text ++ piece.rest) = cs := by
      rw [cut_append, ← splitGap_append false cs, hgap]
    have hlength := congrArg Source.byteLength hcs
    rw [Source.byteLength_append, Source.byteLength_append] at hlength
    rcases List.mem_cons.1 hl with rfl | hl
    · have hpos : 0 < Source.byteLength piece.text :=
        Source.byteLength_pos (text_cut_ne_nil c rest)
      simp only [stop]
      omega
    · have hinside := ih hl
      omega

/-- Lexemes come one after the other and do not overlap. -/
theorem pairwise_scanFrom (start : Nat) (cs : List Char) :
    (scanFrom start cs).Pairwise fun a b => a.stop ≤ b.start := by
  fun_induction scanFrom start cs with
  | case1 => exact .nil
  | case2 start cs gap c rest hgap here piece ih =>
    refine .cons ?_ ih
    intro l hl
    exact (bounds_of_mem_scanFrom hl).1

/-! ## Consecutive lexemes -/

/-- What follows a gap starts with no gap. -/
theorem splitGap_of_splitGap {inComment : Bool} {cs gap rest : List Char} {c : Char}
    (h : splitGap inComment cs = (gap, c :: rest)) :
    splitGap false (c :: rest) = ([], c :: rest) := by
  induction cs generalizing inComment gap with
  | nil => cases h
  | cons d cs ih =>
    unfold splitGap at h
    split at h
    · exact ih (Prod.ext rfl (Prod.mk.inj h).2)
    split at h
    · exact ih (Prod.ext rfl (Prod.mk.inj h).2)
    next hblank =>
    split at h
    · exact ih (Prod.ext rfl (Prod.mk.inj h).2)
    next hsemicolon =>
    obtain ⟨rfl, rfl⟩ := List.cons.inj (Prod.mk.inj h).2
    simp [splitGap, hblank, hsemicolon]

/-- The gap before the first lexeme can be taken away. -/
theorem scanFrom_after_gap {start : Nat} {cs : List Char} {l : Lexeme} {ls : List Lexeme}
    (h : scanFrom start cs = l :: ls) :
    ∃ gap text, cs = gap ++ text ∧ l.start = start + Source.byteLength gap ∧
      scanFrom l.start text = l :: ls := by
  obtain ⟨gap, rest, hgap⟩ : ∃ gap rest, splitGap false cs = (gap, rest) := ⟨_, _, rfl⟩
  have hcs := splitGap_append false cs
  rw [hgap] at hcs
  cases rest with
  | nil =>
    rw [scanFrom_of_gap start hgap] at h
    cases h
  | cons c rest =>
    rw [scanFrom_of_cut start hgap] at h
    obtain ⟨rfl, rfl⟩ := List.cons.inj h
    refine ⟨gap, c :: rest, hcs.symm, rfl, ?_⟩
    rw [scanFrom_of_cut _ (splitGap_of_splitGap hgap)]
    simp

/-- The text around a cut can be ended anywhere after the lexeme. -/
theorem cut_front {c : Char} {cs front back : List Char} (h : (cut c cs).rest = front ++ back) :
    ∃ inside, cs = inside ++ back ∧ c :: inside = (cut c cs).text ++ front ∧
      cut c inside = { cut c cs with rest := front } := by
  obtain ⟨d, text, htext⟩ := List.exists_cons_of_ne_nil (text_cut_ne_nil c cs)
  have hall := cut_append c cs
  rw [h, htext, List.cons_append] at hall
  obtain ⟨rfl, hcs⟩ := List.cons.inj hall
  rw [← List.append_assoc] at hcs
  refine ⟨text ++ front, hcs.symm, by rw [htext, List.cons_append], ?_⟩
  rw [← hcs] at h ⊢
  exact IgnoresTail.cut d h

/-- The first lexemes of a text are the lexemes of its front up to the end of the last of them, and
the others are those of what follows. -/
theorem scanFrom_split {start : Nat} {cs : List Char} {ls ls' : List Lexeme}
    (h : scanFrom start cs = ls ++ ls') :
    ∃ front back, cs = front ++ back ∧
      scanFrom start front = ls ∧ scanFrom (start + Source.byteLength front) back = ls' ∧
      (ls.map stop).getLastD start = start + Source.byteLength front := by
  induction ls generalizing start cs with
  | nil => exact ⟨[], cs, rfl, scanFrom_of_gap start rfl, h, rfl⟩
  | cons l ls ih =>
    obtain ⟨gap, rest, hgap⟩ : ∃ gap rest, splitGap false cs = (gap, rest) := ⟨_, _, rfl⟩
    cases rest with
    | nil =>
      rw [scanFrom_of_gap start hgap] at h
      cases h
    | cons c rest =>
      rw [scanFrom_of_cut start hgap, List.cons_append] at h
      obtain ⟨rfl, hafter⟩ := List.cons.inj h
      obtain ⟨front, back, hrest, hfront, hback, hlast⟩ := ih hafter
      obtain ⟨inside, hsplit, hinside, hcut⟩ := cut_front hrest
      have hcs : cs = (gap ++ c :: inside) ++ back := by
        rw [← splitGap_append false cs, hgap, hsplit]
        simp
      have hlength : start + Source.byteLength (gap ++ c :: inside)
          = start + Source.byteLength gap + Source.byteLength (cut c rest).text
            + Source.byteLength front := by
        rw [hinside, Source.byteLength_append, Source.byteLength_append]
        omega
      rw [hcs, hsplit, ← List.cons_append] at hgap
      refine ⟨gap ++ c :: inside, back, hcs, ?_, ?_, ?_⟩
      · rw [scanFrom_of_cut start (splitGap_of_append hgap), hcut, hfront]
      · rw [hlength, hback]
      · rw [hlength, ← hlast, List.map_cons, List.getLastD_cons]
        rfl

/-- Consecutive lexemes of a text are the lexemes of the part from the start of the first of them to
the end of the last. -/
theorem scanFrom_infix {start : Nat} {cs : List Char} {ls₁ ls₂ ls : List Lexeme} {l last : Lexeme}
    (h : scanFrom start cs = ls₁ ++ (l :: ls) ++ ls₂) (hlast : (l :: ls).getLast? = some last) :
    ∃ front text back, cs = front ++ (text ++ back) ∧
      start + Source.byteLength front = l.start ∧
      start + Source.byteLength front + Source.byteLength text = last.stop ∧
      scanFrom l.start text = l :: ls := by
  obtain ⟨whole, back, rfl, hwhole, -, hend⟩ := scanFrom_split h
  obtain ⟨before, after, rfl, -, hafter, -⟩ := scanFrom_split hwhole
  obtain ⟨gap, text, rfl, hstart, htext⟩ := scanFrom_after_gap hafter
  rw [List.getLastD_eq_getLast?, List.getLast?_map, List.getLast?_append, hlast] at hend
  refine ⟨before ++ gap, text, back, by simp, ?_, ?_, htext⟩
  · rw [hstart, Source.byteLength_append, Nat.add_assoc]
  · simp only [Source.byteLength_append] at hend ⊢
    simp at hend
    omega

end Lexeme

end QLisp
