import Mathlib
import QLisp.Diagnostic.Report
import QLisp.Proofs.Problems

/-!
# The two places of a problem

A problem is shown at two places: `Diagnostic.location` counts the characters before its byte
offset and knows the line feed as the only end of a line, while a report takes the byte offset for
a number of characters and ends its lines at every line terminator.

A report finds a place by a walk over as many characters as its offset says (`locate?_ofSource`).
The walk never falls behind the count of line feeds, and gets ahead of it with every other line end
and with every character too many (`walk_eq_after_iff`). So the two places agree exactly where the
text before the problem has as many characters as bytes and no line of it ends otherwise than in a
line feed, provided that the report can be drawn at all. The statement is
`Report.place_agrees_iff`.
-/

set_option autoImplicit false

namespace QLisp

namespace Location

/-- What is shown of a location before the colon is its line. -/
theorem takeWhile_describe (l : Location) :
    l.describe.toList.takeWhile (· != ':') = l.line.repr.toList := by
  have hdigits : ∀ c ∈ l.line.repr.toList, (c != ':') = true := by
    intro c hc
    rw [Nat.toList_repr] at hc
    have hdigit := Nat.isDigit_of_mem_toDigits (by decide) (by decide) hc
    rw [bne_iff_ne]
    rintro rfl
    exact absurd hdigit (by decide)
  unfold describe
  rw [String.toList_append, String.toList_append, List.append_assoc,
    List.takeWhile_append_of_pos hdigits]
  simp

/-- A location is known by how it is shown. -/
theorem describe_injective {l k : Location} (h : l.describe = k.describe) : l = k := by
  have hline : l.line.repr = k.line.repr := by
    rw [← String.toList_inj, ← takeWhile_describe, h, takeWhile_describe]
  unfold describe at h
  rw [hline, String.append_right_inj] at h
  obtain ⟨line, column⟩ := l
  rw [mk.injEq]
  exact ⟨Nat.repr_injective hline, Nat.repr_injective h⟩

/-- No location is shown as unknown. -/
theorem describe_ne_unknown (l : Location) : l.describe ≠ "?:?" := by
  intro h
  have hmark : l.line.repr.toList = ['?'] := by
    rw [← takeWhile_describe, h]
    decide
  have hdigit : '?' ∈ Nat.toDigits 10 l.line := by
    rw [← Nat.toList_repr, hmark]
    exact List.mem_singleton_self _
  exact absurd (Nat.isDigit_of_mem_toDigits (by decide) (by decide) hdigit) (by decide)

/-- One character leads to the next line at most. -/
theorem line_next_le (l : Location) (c : Char) : (l.next c).line ≤ l.line + 1 := by
  unfold next
  split
  · exact Nat.le_refl _
  · exact Nat.le_succ _

end Location

/-! ## The place of an offset as a walk -/

namespace Report

/-- Whether a character is the last one of its line, which a carriage return before a line feed is
not. -/
def endsLine (c : Char) (rest : List Char) : Bool :=
  isLineEnd c && !(c == '\r' && rest.head? == some '\n')

/-- The place after so many characters. A line end at the very end starts no further line, and what
is past the end belongs to the last line. -/
def walk (l : Location) : Nat → List Char → Location
  | 0, _ => l
  | offset + 1, [] => ⟨l.line, l.column + (offset + 1)⟩
  | offset + 1, c :: cs =>
    if endsLine c cs && !cs.isEmpty then walk ⟨l.line + 1, 1⟩ offset cs
    else walk ⟨l.line, l.column + 1⟩ offset cs

/-- Only the empty source has no lines. -/
theorem lines_eq_nil_iff (cs : List Char) : lines cs = [] ↔ cs = [] := by
  fun_cases lines cs <;> simp_all

/-- The lengths of lines, the first of which has `j` more characters in front. -/
def lengthsAfter (j : Nat) : List (List Char) → List Nat
  | [] => [j]
  | l :: ls => (j + l.length) :: ls.map List.length

/-- An offset in a line is in that line. -/
theorem locateFrom_of_lt {line offset n : Nat} (ls : List Nat) (h : offset < n) :
    locateFrom line offset (n :: ls) = ⟨line, offset + 1⟩ := by
  cases ls with
  | nil => rfl
  | cons l ls => rw [locateFrom, if_pos h]

/-- An offset behind a line is in the lines that follow, if there are any. -/
theorem locateFrom_line (line offset n : Nat) (cs : List Char) :
    locateFrom line offset (n :: (lines cs).map List.length)
      = if n ≤ offset ∧ cs ≠ [] then
          locateFrom (line + 1) (offset - n) (lengthsAfter 0 (lines cs))
        else ⟨line, offset + 1⟩ := by
  cases hlines : lines cs with
  | nil =>
    have hcs := (lines_eq_nil_iff cs).1 hlines
    rw [if_neg fun h => h.2 hcs]
    rfl
  | cons l ls =>
    have hcs : cs ≠ [] := fun h => by simp [h, lines] at hlines
    simp only [lengthsAfter, Nat.zero_add, List.map_cons, locateFrom]
    by_cases hn : offset < n
    · rw [if_pos hn, if_neg fun h => Nat.not_le_of_lt hn h.1]
    · rw [if_neg hn, if_pos ⟨Nat.le_of_not_lt hn, hcs⟩]

/-- Behind the source only the column goes on. -/
theorem walk_nil (l : Location) (offset : Nat) :
    walk l offset [] = ⟨l.line, l.column + offset⟩ := by
  cases offset <;> rfl

/-- Behind the end of a line the next one begins. -/
theorem walk_of_endsLine {l : Location} {offset : Nat} {c : Char} {cs : List Char}
    (h : endsLine c cs = true) (hcs : cs ≠ []) :
    walk l (offset + 1) (c :: cs) = walk ⟨l.line + 1, 1⟩ offset cs := by
  rw [walk, h]
  simp [hcs]

/-- Within a line the column goes on. -/
theorem walk_of_not_endsLine {l : Location} {offset : Nat} {c : Char} {cs : List Char}
    (h : endsLine c cs = false) :
    walk l (offset + 1) (c :: cs) = walk ⟨l.line, l.column + 1⟩ offset cs := by
  rw [walk, h]
  rfl

/-- Behind the last character only the column goes on. -/
theorem walk_last (l : Location) (offset : Nat) (c : Char) :
    walk l offset [c] = ⟨l.line, l.column + offset⟩ := by
  cases offset with
  | zero => rfl
  | succ offset =>
    simp only [walk, List.isEmpty_nil, Bool.not_true, Bool.and_false, Bool.false_eq_true, if_false]
    rw [walk_nil, Nat.add_assoc, Nat.add_comm 1]

/-- An offset that is looked for from within a line is walked to. -/
theorem locateFrom_lengthsAfter (line j offset : Nat) (cs : List Char) :
    locateFrom line (j + offset) (lengthsAfter j (lines cs)) = walk ⟨line, j + 1⟩ offset cs := by
  fun_induction lines cs generalizing line j offset with
  | case1 =>
    rw [walk_nil, Nat.add_right_comm]
    rfl
  | case2 cs ih =>
    have hreturn : endsLine '\r' ('\n' :: cs) = false := rfl
    rw [lengthsAfter, locateFrom_line]
    obtain rfl | rfl | ⟨k, rfl⟩ : offset = 0 ∨ offset = 1 ∨ ∃ k, offset = k + 2 := by
      by_cases h : offset < 2
      · omega
      · exact .inr (.inr ⟨offset - 2, by omega⟩)
    · simp [walk]
    · simp [walk, hreturn, Nat.add_assoc]
    · rw [walk_of_not_endsLine hreturn]
      by_cases hcs : cs = []
      · rw [hcs, walk_last, if_neg (by simp)]
        congr 1
        dsimp only
        omega
      · have hoffset : j + (k + 2) - (j + 2) = 0 + k := by omega
        rw [walk_of_endsLine rfl hcs, if_pos ⟨by simp, hcs⟩, ← ih (line + 1) 0 k]
        exact congrArg (locateFrom (line + 1) · _) hoffset
  | case3 c cs hpair hend ih =>
    have hline : endsLine c cs = true := by
      rw [endsLine, hend]
      cases cs with
      | nil => simp
      | cons d cs =>
        by_contra hcr
        simp at hcr
        exact hpair cs hcr.1 (congrArg (· :: cs) hcr.2)
    rw [lengthsAfter, locateFrom_line]
    cases offset with
    | zero => simp [walk]
    | succ offset =>
      by_cases hcs : cs = []
      · rw [hcs, walk_last, if_neg (by simp)]
        congr 1
        dsimp only
        omega
      · have hoffset : j + (offset + 1) - (j + 1) = 0 + offset := by omega
        rw [walk_of_endsLine hline hcs, if_pos ⟨by simp, hcs⟩, ← ih (line + 1) 0 offset]
        exact congrArg (locateFrom (line + 1) · _) hoffset
  | case4 c cs hpair hend hlines ih =>
    rw [(lines_eq_nil_iff cs).1 hlines, walk_last]
    show locateFrom line (j + offset) [j + 1] = _
    rw [Nat.add_right_comm]
    rfl
  | case5 c cs hpair hend l ls hlines ih =>
    have hline : endsLine c cs = false := by
      rw [endsLine, Bool.eq_false_iff.2 hend]
      rfl
    cases offset with
    | zero =>
      apply locateFrom_of_lt
      rw [List.length_cons]
      omega
    | succ offset =>
      rw [walk_of_not_endsLine hline, ← ih line (j + 1) offset, hlines]
      simp only [lengthsAfter, List.length_cons]
      congr 1
      · omega
      · congr 1
        omega

/-- An offset that is looked for in lines is walked to. -/
theorem locateFrom_lines (line offset : Nat) (cs : List Char) :
    locateFrom line offset ((lines cs).map List.length) = walk ⟨line, 1⟩ offset cs := by
  have hwalk := locateFrom_lengthsAfter line 0 offset cs
  rw [Nat.zero_add, Nat.zero_add] at hwalk
  rw [← hwalk]
  cases lines cs with
  | nil => rfl
  | cons l ls => rw [lengthsAfter, Nat.zero_add, List.map_cons]

/-- A report finds the place of an offset by walking over as many characters. -/
theorem locate?_ofSource (source : String) (offset : Nat) :
    (Sheet.ofSource source).locate? offset
      = if offset ≤ source.length then some (walk ⟨1, 1⟩ offset source.toList) else none := by
  unfold Sheet.locate? Sheet.ofSource
  dsimp only
  rw [locateFrom_lines]

/-! ## The walk and the count of line feeds -/

/-- The lines that end within the first `n` characters end with line feeds. -/
def PlainLines (n : Nat) (cs : List Char) : Prop :=
  ∀ front c back, cs = front ++ c :: back → front.length < n → endsLine c back = true → c = '\n'

/-- Lines are plain if the first character is, and those that follow are. -/
theorem plainLines_cons {n : Nat} {c : Char} {cs : List Char} :
    PlainLines (n + 1) (c :: cs) ↔ (endsLine c cs = true → c = '\n') ∧ PlainLines n cs := by
  constructor
  · intro h
    refine ⟨h [] c cs rfl (Nat.succ_pos n), ?_⟩
    intro front d back hcs hlength
    exact h (c :: front) d back (congrArg (c :: ·) hcs) (Nat.succ_lt_succ hlength)
  · rintro ⟨hfirst, hrest⟩ front d back hcs hlength
    cases front with
    | nil =>
      obtain ⟨rfl, rfl⟩ := List.cons.inj hcs
      exact hfirst
    | cons e front =>
      exact hrest front d back (List.cons.inj hcs).2 (Nat.lt_of_succ_lt_succ hlength)

/-- Before the start all lines are plain. -/
theorem plainLines_zero (cs : List Char) : PlainLines 0 cs :=
  fun _ _ _ _ hlength => absurd hlength (Nat.not_lt_zero _)

/-- The empty source has plain lines. -/
theorem plainLines_nil (n : Nat) : PlainLines n [] :=
  fun _ _ _ hcs => absurd hcs (by simp)

/-- Whether lines are plain can be told. -/
instance decidablePlainLines : (n : Nat) → (cs : List Char) → Decidable (PlainLines n cs)
  | 0, cs => .isTrue (plainLines_zero cs)
  | n + 1, [] => .isTrue (plainLines_nil (n + 1))
  | n + 1, _ :: cs =>
    have := decidablePlainLines n cs
    decidable_of_iff _ plainLines_cons.symm

/-- A walk leads to a later line, or to a later column of the same line. -/
theorem walk_ahead (l : Location) (offset : Nat) (cs : List Char) :
    l.line < (walk l offset cs).line ∨
      (walk l offset cs).line = l.line ∧ (walk l offset cs).column = l.column + offset := by
  fun_induction walk l offset cs with
  | case1 => simp
  | case2 => simp
  | case3 l offset c cs _ ih =>
    dsimp only at ih
    omega
  | case4 l offset c cs _ ih =>
    dsimp only at ih
    omega

/-- What ends no line is no line feed. -/
theorem ne_newline_of_not_endsLine {c : Char} {cs : List Char} (h : endsLine c cs = false) :
    c ≠ '\n' := by
  rintro rfl
  exact Bool.noConfusion h

/-- A walk that is lines ahead of a count of line feeds stays ahead. -/
theorem line_lt_walk {l k : Location} (h : l.line < k.line) {n : Nat} (q : Nat) {cs : List Char}
    (hn : n < cs.length) :
    ((cs.take n).foldl Location.next l).line < (walk k (n + q) cs).line := by
  induction n generalizing l k cs with
  | zero =>
    have hahead := walk_ahead k (0 + q) cs
    rw [List.take_zero, List.foldl_nil]
    omega
  | succ n ih =>
    cases cs with
    | nil => simp at hn
    | cons c cs =>
      have hlength : n < cs.length := Nat.lt_of_succ_lt_succ hn
      rw [List.take_succ_cons, List.foldl_cons, Nat.succ_add]
      cases hend : endsLine c cs with
      | true =>
        rw [walk_of_endsLine hend (List.ne_nil_of_length_pos (Nat.zero_lt_of_lt hlength))]
        apply ih _ hlength
        have hnext := Location.line_next_le l c
        dsimp only
        omega
      | false =>
        rw [walk_of_not_endsLine hend]
        apply ih _ hlength
        rw [Location.next, if_neg (ne_newline_of_not_endsLine hend)]
        exact h

/-- A walk counts line feeds until it comes to another line end, which puts it ahead. -/
theorem walk_add (l : Location) {n : Nat} (q : Nat) {cs : List Char} (hn : n < cs.length) :
    (PlainLines n cs ∧
      walk l (n + q) cs = walk ((cs.take n).foldl Location.next l) q (cs.drop n)) ∨
    (¬ PlainLines n cs ∧ ((cs.take n).foldl Location.next l).line < (walk l (n + q) cs).line) := by
  induction n generalizing l cs with
  | zero =>
    refine .inl ⟨plainLines_zero cs, ?_⟩
    rw [Nat.zero_add, List.take_zero, List.drop_zero, List.foldl_nil]
  | succ n ih =>
    cases cs with
    | nil => simp at hn
    | cons c cs =>
      have hlength : n < cs.length := Nat.lt_of_succ_lt_succ hn
      rw [List.take_succ_cons, List.drop_succ_cons, List.foldl_cons, Nat.succ_add, plainLines_cons]
      cases hend : endsLine c cs with
      | true =>
        rw [walk_of_endsLine hend (List.ne_nil_of_length_pos (Nat.zero_lt_of_lt hlength))]
        by_cases hc : c = '\n'
        · rw [Location.next, if_pos hc]
          simpa [hc] using ih ⟨l.line + 1, 1⟩ hlength
        · refine .inr ⟨fun h => hc (h.1 rfl), line_lt_walk ?_ q hlength⟩
          rw [Location.next, if_neg hc]
          exact Nat.lt_succ_self _
      | false =>
        rw [walk_of_not_endsLine hend, Location.next, if_neg (ne_newline_of_not_endsLine hend)]
        simpa using ih ⟨l.line, l.column + 1⟩ hlength

/-- A walk ends at the place after the first `n` characters exactly if it has gone that far and no
line within them ends otherwise than with a line feed. -/
theorem walk_eq_after_iff {n q : Nat} {cs : List Char} (hn : n < cs.length) :
    walk ⟨1, 1⟩ (n + q) cs = Location.after (cs.take n) ↔ q = 0 ∧ PlainLines n cs := by
  rw [← Location.foldl_next_eq_after]
  rcases walk_add ⟨1, 1⟩ q hn with ⟨hplain, hwalk⟩ | ⟨hplain, hline⟩
  · have hahead := walk_ahead ((cs.take n).foldl Location.next ⟨1, 1⟩) q (cs.drop n)
    rw [hwalk]
    constructor
    · intro h
      rw [h] at hahead
      exact ⟨by omega, hplain⟩
    · rintro ⟨rfl, -⟩
      rfl
  · constructor
    · intro h
      rw [h] at hline
      exact absurd hline (Nat.lt_irrefl _)
    · exact fun h => absurd h.2 hplain

end Report

namespace Source

/-- The characters that fit are a beginning. -/
theorem isPrefix_takeBytes (n : Nat) (cs : List Char) : takeBytes n cs <+: cs := by
  induction cs generalizing n with
  | nil => exact List.prefix_refl _
  | cons c cs ih =>
    rw [takeBytes]
    split
    · exact List.cons_prefix_cons.2 ⟨rfl, ih _⟩
    · exact List.nil_prefix

/-- A text has no more characters than bytes. -/
theorem length_le_byteLength (cs : List Char) : cs.length ≤ byteLength cs := by
  induction cs with
  | nil => exact Nat.le_refl _
  | cons c cs ih =>
    have hsize := c.utf8Size_pos
    rw [List.length_cons, byteLength_cons]
    omega

/-- At an offset inside a source, some characters do not fit. -/
theorem length_takeBytes_lt {n : Nat} {cs : List Char} (h : n < byteLength cs) :
    (takeBytes n cs).length < cs.length := by
  apply Nat.lt_of_le_of_ne (isPrefix_takeBytes n cs).length_le
  intro hlength
  have hall := (isPrefix_takeBytes n cs).eq_of_length hlength
  have hbytes := byteLength_takeBytes_le n cs
  rw [hall] at hbytes
  omega

end Source

namespace Report

/-- The place of an offset in a report is the place that the offset leads to exactly if as many
characters as bytes stand before it and the lines there end with line feeds. -/
theorem locate?_eq_locate_iff {source : String} {offset : UInt32}
    (h : offset.toNat < Source.byteLength source.toList) :
    (Sheet.ofSource source).locate? offset.toNat = some (Location.locate source offset) ↔
      (Source.takeBytes offset.toNat source.toList).length = offset.toNat ∧
      PlainLines offset.toNat source.toList := by
  obtain ⟨before, hbefore⟩ : ∃ before, before = Source.takeBytes offset.toNat source.toList :=
    ⟨_, rfl⟩
  have hless : before.length < source.toList.length :=
    hbefore ▸ Source.length_takeBytes_lt h
  have htake : before = source.toList.take before.length := by
    rw [hbefore]
    exact List.prefix_iff_eq_take.1 (Source.isPrefix_takeBytes _ _)
  obtain ⟨q, hq⟩ : ∃ q, offset.toNat = before.length + q := by
    have hbytes := Source.byteLength_takeBytes_le offset.toNat source.toList
    have hlength := Source.length_le_byteLength before
    rw [← hbefore] at hbytes
    exact ⟨offset.toNat - before.length, by omega⟩
  have hwalk := walk_eq_after_iff (q := q) hless
  rw [← htake, ← hq] at hwalk
  rw [locate?_ofSource, Location.locate_eq_after, ← hbefore]
  constructor
  · intro hplace
    split at hplace
    · obtain ⟨rfl, hplain⟩ := hwalk.1 (Option.some.inj hplace)
      rw [Nat.add_zero] at hq
      exact ⟨hq.symm, hq ▸ hplain⟩
    · cases hplace
  · rintro ⟨hlength, hplain⟩
    rw [← hlength] at hplain
    rw [if_pos (by rw [← hlength, ← String.length_toList]; omega),
      hwalk.2 ⟨by omega, hplain⟩]

/-- A report shows a location if it draws a label and the sheet finds the location. -/
theorem place_eq_iff (source name : String) (d : Diagnostic) (l : Location) :
    (ofDiagnostic source name d).place = some (name ++ ":" ++ l.describe) ↔
      d.labels.any (Sheet.ofSource source).draws = true ∧
      (Sheet.ofSource source).locate? d.position = some l := by
  unfold ofDiagnostic onSheet
  cases d.labels.any (Sheet.ofSource source).draws with
  | false => simp
  | true =>
    cases (Sheet.ofSource source).locate? d.position with
    | none => simpa using l.describe_ne_unknown.symm
    | some k =>
      simp only [if_true, Option.some.injEq, String.append_right_inj, true_and]
      exact ⟨Location.describe_injective, congrArg Location.describe⟩

end Report

/-! ## What a report can draw -/

/-- The labels of a problem: an unexpected character is pointed at as a whole, and otherwise one
label is a single byte where the problem starts. -/
structure Diagnostic.Labelled (d : Diagnostic) : Prop where
  whole : d.code = some .unexpectedCharacter → d.labels.map Label.span = [d.span]
  narrow : d.code ≠ some .unexpectedCharacter → ∃ label ∈ d.labels,
    label.span.start = d.span.start ∧ label.span.stop.toNat ≤ d.span.start.toNat + 1

/-- A problem that is about a delimiter, at which one of its labels points. -/
structure Diagnostic.AtDelimiter (d : Diagnostic) : Prop where
  pointed : ∃ label ∈ d.labels, label.span = d.span
  concerns : ∃ code, d.code = some code ∧ code ≠ .unexpectedCharacter ∧
    ∀ kind, code.Concerns kind → kind.isDelimiter = true

/-- The span of a byte has one byte at most. -/
theorem Span.stop_byteAt_le (offset : Nat) :
    (byteAt offset).stop.toNat ≤ (byteAt offset).start.toNat + 1 := by
  show (offset + 1).toUInt32.toNat ≤ offset.toUInt32.toNat + 1
  rw [Nat.toUInt32_eq, Nat.toUInt32_eq, UInt32.toNat_ofNat', UInt32.toNat_ofNat']
  omega

namespace Lexeme

/-- The problem of a lexeme has its labels. -/
theorem labelled_of_diagnostic? {l : Lexeme} {d : Diagnostic} (h : l.diagnostic? = some d) :
    d.Labelled := by
  unfold diagnostic? at h
  split at h
  · cases h
  · obtain rfl := Option.some.inj h
    exact ⟨fun _ => rfl, fun hcode => absurd rfl hcode⟩
  · obtain rfl := Option.some.inj h
    refine ⟨fun hcode => ?_, fun _ => ⟨_, List.mem_singleton_self _, rfl, ?_⟩⟩
    · cases hcode
    · exact Span.stop_byteAt_le l.start

/-- A delimiter has one byte. -/
theorem text_of_isDelimiter {c : Char} {cs : List Char} {kind : TokenKind}
    (h : (cut c cs).reading = .ok kind) (hkind : kind.isDelimiter = true) :
    Source.byteLength (cut c cs).text = 1 := by
  unfold cut at h ⊢
  split_ifs at h ⊢ with hopen hclose hopen' hclose'
  · rw [eq_of_beq hopen]
    rfl
  · rw [eq_of_beq hclose]
    rfl
  · rw [eq_of_beq hopen']
    rfl
  · rw [eq_of_beq hclose']
    rfl
  · unfold cutText at h
    split at h
    · cases h
      cases hkind
    · cases h
  all_goals
    cases h
    cases hkind

/-- Delimiters are one byte wide. -/
theorem span_of_isDelimiter {start : Nat} {cs : List Char} {l : Lexeme}
    (hl : l ∈ scanFrom start cs) (h : l.token.kind.isDelimiter = true) :
    l.span = Span.byteAt l.start := by
  obtain ⟨c, rest, htext, hreading⟩ := exists_cut_of_mem_scanFrom hl
  cases hkind : l.reading with
  | error fault =>
    unfold token at h
    rw [hkind] at h
    cases h
  | ok kind =>
    unfold token at h
    rw [hkind] at h
    rw [span, htext, text_of_isDelimiter (hreading.symm.trans hkind) h]
    rfl

end Lexeme

namespace FrameMachine

section

variable {P : Diagnostic → Prop} (hunclosed : ∀ span opening closing,
    P (.unclosedDelimiter span opening closing))
  (hunexpected : ∀ span closing, P (.unexpectedCloser span closing))
  (hmismatched : ∀ span opened expected found,
    P (.mismatchedDelimiter span opened expected found))

/-- What holds of all problems and of one more. -/
theorem all_report {m : FrameMachine} {d : Diagnostic} (h : ∀ e ∈ m.diagnostics, P e)
    (hd : P d) : ∀ e ∈ (m.report d).diagnostics, P e := by
  intro e he
  rcases List.mem_append.1 he with he | he
  · exact h e he
  · rw [List.mem_singleton.1 he]
    exact hd

include hunclosed

/-- What holds of all problems and of groups that are not closed. -/
theorem all_iterate_abandon {m : FrameMachine} (h : ∀ d ∈ m.diagnostics, P d) (n : Nat) :
    ∀ d ∈ (abandon^[n] m).diagnostics, P d := by
  induction n generalizing m with
  | zero => exact h
  | succ n ih =>
    rw [Function.iterate_succ_apply]
    apply ih
    unfold abandon
    split
    · exact h
    · rw [diagnostics_leave]
      exact all_report h (hunclosed _ _ _)

include hunexpected hmismatched

/-- What holds of all problems after a step of reading. -/
theorem all_step {m : FrameMachine} (h : ∀ d ∈ m.diagnostics, P d) (t : Token) :
    ∀ d ∈ (m.step t).diagnostics, P d := by
  obtain ⟨kind, span⟩ := t
  cases kind with
  | atom a =>
    show ∀ d ∈ (m.append _).diagnostics, P d
    rw [diagnostics_append]
    exact h
  | closer k =>
    show ∀ d ∈ (m.close k span).diagnostics, P d
    unfold close
    split
    · exact all_report h (hunexpected _ _)
    split
    · rw [diagnostics_leave]
      exact all_iterate_abandon hunclosed h _
    · exact all_report h (hmismatched _ _ _ _)
  | opener d => exact h
  | invalid | eof => exact h

/-- The nesting of tokens has problems of three kinds only. -/
theorem all_diagnostics_ofTokens (tokens : List Token) :
    ∀ d ∈ (SourceFile.ofTokens tokens).2, P d := by
  have hrun : ∀ (ts : List Token) (m : FrameMachine), (∀ d ∈ m.diagnostics, P d) →
      ∀ d ∈ (ts.foldl step m).diagnostics, P d := by
    intro ts
    induction ts with
    | nil => exact fun m h => h
    | cons t ts ih => exact fun m h => ih _ (all_step hunclosed hunexpected hmismatched h t)
  have hstart : ∀ d ∈ start.diagnostics, P d := fun d hd => nomatch hd
  rw [diagnostics_ofTokens]
  exact all_iterate_abandon hunclosed (hrun _ _ hstart) _

end

end FrameMachine

namespace SourceFile

/-- Every problem of a source is about a token. -/
theorem exists_about {source : String} {d : Diagnostic} (hd : d ∈ (ofSource source).2) :
    ∃ l ∈ Lexeme.scan source, d.About l.token := by
  obtain ⟨blamed, habout, hsub⟩ := about_tokens source
  obtain ⟨i, hi, rfl⟩ := List.getElem_of_mem hd
  have hlength : i < blamed.length := habout.length_eq ▸ hi
  have ht : blamed[i] ∈ (Lexeme.scan source).map Lexeme.token :=
    hsub.subset (List.getElem_mem hlength)
  obtain ⟨l, hl, htoken⟩ := List.mem_map.1 ht
  refine ⟨l, hl, ?_⟩
  rw [htoken]
  exact habout.get hi hlength

/-- Every problem lies in the source. -/
theorem position_lt {source : String} {d : Diagnostic} (hd : d ∈ (ofSource source).2) :
    d.position < Source.byteLength source.toList := by
  obtain ⟨l, hl, habout⟩ := exists_about hd
  obtain ⟨-, hstart, hstop⟩ := Lexeme.bounds_of_mem_scanFrom hl
  have hposition : d.position ≤ l.start := by
    rw [Diagnostic.position, habout.span_eq]
    show l.start.toUInt32.toNat ≤ l.start
    rw [Nat.toUInt32_eq, UInt32.toNat_ofNat']
    exact Nat.mod_le _ _
  omega

/-- What is wrong with the nesting of tokens is wrong with delimiters. -/
theorem atDelimiter_of_mem (tokens : List Token) : ∀ d ∈ (ofTokens tokens).2, d.AtDelimiter := by
  apply FrameMachine.all_diagnostics_ofTokens
  · intro span opening closing
    refine ⟨⟨_, List.mem_cons_self, rfl⟩, _, rfl, by decide, ?_⟩
    rintro kind ⟨d, rfl⟩
    rfl
  · intro span closing
    refine ⟨⟨_, List.mem_cons_self, rfl⟩, _, rfl, by decide, ?_⟩
    rintro kind ⟨d, rfl⟩
    rfl
  · intro span opened expected found
    refine ⟨⟨_, List.mem_cons_self, rfl⟩, _, rfl, by decide, ?_⟩
    rintro kind ⟨d, rfl⟩
    rfl

/-- Every problem of a source has its labels. -/
theorem labelled_of_mem {source : String} {d : Diagnostic} (hd : d ∈ (ofSource source).2) :
    d.Labelled := by
  obtain ⟨l, hl, habout⟩ := exists_about hd
  rcases List.mem_append.1 ((List.mergeSort_perm _ _).mem_iff.1 hd) with hscan | hnesting
  · obtain ⟨k, -, hk⟩ := List.mem_filterMap.1 hscan
    exact Lexeme.labelled_of_diagnostic? hk
  · obtain ⟨⟨label, hlabel, hspan⟩, code, hcode, hne, hdelimiter⟩ :=
      atDelimiter_of_mem _ d hnesting
    refine ⟨fun h => ?_, fun _ => ⟨label, hlabel, congrArg Span.start hspan, ?_⟩⟩
    · exact absurd (Option.some.inj (hcode.symm.trans h)) hne
    · -- The label has the span of the delimiter, which is one byte wide.
      obtain ⟨code', hcode', hconcerns⟩ := habout.concerns
      obtain rfl := Option.some.inj (hcode.symm.trans hcode')
      rw [hspan, habout.span_eq]
      show l.span.stop.toNat ≤ l.span.start.toNat + 1
      rw [Lexeme.span_of_isDelimiter hl (hdelimiter _ hconcerns)]
      exact Span.stop_byteAt_le l.start

end SourceFile

namespace Report

/-- A label is drawn if it ends in the sheet. -/
theorem draws_iff {source : String} {label : Label}
    (h : label.span.start.toNat < source.length) :
    (Sheet.ofSource source).draws label = true ↔ label.span.stop.toNat ≤ source.length + 1 := by
  unfold Sheet.draws Sheet.ofSource
  simp only [Bool.and_eq_true, Bool.or_eq_true, bne_iff_ne, decide_eq_true_eq]
  omega

/-- A problem whose place is in the source is drawn, unless it is an unexpected character whose
bytes, taken for characters, go beyond the end. -/
theorem any_draws_iff {source : String} {d : Diagnostic} (hd : d.Labelled)
    (h : d.position < source.length) :
    d.labels.any (Sheet.ofSource source).draws = true ↔
      (d.code = some .unexpectedCharacter → d.span.stop.toNat ≤ source.length + 1) := by
  rw [List.any_eq_true]
  by_cases hcode : d.code = some .unexpectedCharacter
  · have hspans := hd.whole hcode
    have hspan : ∀ label ∈ d.labels, label.span = d.span := by
      intro label hlabel
      have hmem := List.mem_map_of_mem (f := Label.span) hlabel
      rw [hspans] at hmem
      exact List.mem_singleton.1 hmem
    obtain ⟨label, hlabel⟩ : ∃ label, label ∈ d.labels := by
      apply List.exists_mem_of_ne_nil
      rintro hnil
      rw [hnil] at hspans
      cases hspans
    have hstart : label.span.start.toNat < source.length := by
      rw [hspan label hlabel]
      exact h
    constructor
    · rintro ⟨other, hother, hdraws⟩ -
      rw [← hspan other hother]
      apply (draws_iff _).1 hdraws
      rw [hspan other hother]
      exact h
    · intro hstop
      refine ⟨label, hlabel, (draws_iff hstart).2 ?_⟩
      rw [hspan label hlabel]
      exact hstop hcode
  · obtain ⟨label, hlabel, hstart, hstop⟩ := hd.narrow hcode
    refine iff_of_true ⟨label, hlabel, ?_⟩ fun h => absurd h hcode
    rw [Diagnostic.position, ← hstart] at h
    rw [← hstart] at hstop
    exact (draws_iff h).2 (by omega)

/-- The place in a report agrees with the location of a problem exactly if the text before the
problem has as many characters as bytes, the lines there end with line feeds, and, for an unexpected
character, its bytes do not reach beyond the number of characters of the source. -/
theorem place_agrees_iff (source name : String) {d : Diagnostic}
    (hd : d ∈ (SourceFile.ofSource source).2) :
    (ofDiagnostic source name d).place = some (name ++ ":" ++ (d.location source).describe) ↔
      (Source.takeBytes d.position source.toList).length = d.position ∧
      PlainLines d.position source.toList ∧
      (d.code = some .unexpectedCharacter → d.span.stop.toNat ≤ source.length + 1) := by
  have hposition := SourceFile.position_lt hd
  rw [place_eq_iff, Diagnostic.location, Diagnostic.position, locate?_eq_locate_iff hposition,
    and_comm, and_assoc]
  refine and_congr_right fun hlength => and_congr_right fun _ => ?_
  apply any_draws_iff (SourceFile.labelled_of_mem hd)
  have hless := Source.length_takeBytes_lt hposition
  rw [Diagnostic.position] at hless ⊢
  rw [hlength, String.length_toList] at hless
  exact hless

/-- Behind a line that ends with two characters the places agree. -/
theorem place_agrees_after_carriage_return :
    (ofDiagnostic "(a\r\n)]" "f" (.unexpectedCharacter ']' ⟨5, 6⟩)).place
      = some ("f" ++ ":" ++
        ((Diagnostic.unexpectedCharacter ']' ⟨5, 6⟩).location "(a\r\n)]").describe) := by
  have hproblems : (SourceFile.ofSource "(a\r\n)]").2 = [.unexpectedCharacter ']' ⟨5, 6⟩] := by cbv
  apply (place_agrees_iff _ _ (hproblems ▸ List.mem_singleton_self _)).2
  exact ⟨by decide, by decide, by decide⟩

/-- Behind a character of two bytes the shown place is one column too far. -/
theorem place_differs_after_wide_character :
    (SourceFile.ofSource "\u00e9)").2
      = [.unexpectedCharacter 'é' ⟨0, 2⟩, .unexpectedCloser ⟨2, 3⟩ ")"] ∧
    (Diagnostic.unexpectedCloser ⟨2, 3⟩ ")").location "\u00e9)" = ⟨1, 2⟩ ∧
    (ofDiagnostic "\u00e9)" "f" (.unexpectedCloser ⟨2, 3⟩ ")")).place = some "f:1:3" := by
  refine ⟨?_, ?_, ?_⟩
  all_goals cbv

end Report

end QLisp
