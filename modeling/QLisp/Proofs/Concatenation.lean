import Mathlib
import QLisp.Proofs.Sequence
import QLisp.Proofs.Snippet

/-!
# The tokens of two texts

Two texts with a line end between them have the tokens and the problems of the first text and then
those of the second, which stand further on by the length of the first text and the line end. The
lexemes are those of `Lexeme.scanFrom_append_newline`; what is left is to say where their spans and
labels stand, and that no offset leaves the range of words.
-/

set_option autoImplicit false

namespace QLisp

/-! ## Moving spans -/

/-- A span that starts and stops `k` bytes later. -/
def Span.shiftRight (k : Nat) (s : Span) : Span :=
  ofOffsets (s.start.toNat + k) (s.stop.toNat + k)

/-- A token that stands `k` bytes later. -/
def Token.shiftRight (k : Nat) (t : Token) : Token :=
  { t with span := t.span.shiftRight k }

/-- A label that points `k` bytes later. -/
def Label.shiftRight (k : Nat) (l : Label) : Label :=
  { l with span := l.span.shiftRight k }

namespace Diagnostic

/-- A problem that stands, with all its labels, `k` bytes later. -/
def shiftRight (k : Nat) (d : Diagnostic) : Diagnostic :=
  { d with span := d.span.shiftRight k, labels := d.labels.map (Label.shiftRight k) }

/-- All the spans of a problem, its own first. -/
def spans (d : Diagnostic) : List Span :=
  d.span :: d.labels.map Label.span

end Diagnostic

namespace Span

/-- A span is moved exactly if both of its offsets stay in the range of words. -/
def Moves (k : Nat) (s : Span) : Prop :=
  (s.shiftRight k).start.toNat = s.start.toNat + k ∧ (s.shiftRight k).stop.toNat = s.stop.toNat + k

/-- Shifting a span to the right shifts both its ends. -/
theorem shiftRight_ofOffsets (k start stop : Nat) :
    (ofOffsets start stop).shiftRight k = ofOffsets (k + start) (k + stop) := by
  have hword (n : Nat) : (n.toUInt32.toNat + k).toUInt32 = (k + n).toUInt32 := by
    apply UInt32.toNat.inj
    simp [Nat.add_comm]
  rw [shiftRight, ofOffsets, ofOffsets, ofOffsets, hword, hword]

/-- A span whose ends fit after a shift is moved as a whole. -/
theorem moves_ofOffsets {k start stop : Nat} (hstart : start + k < 2 ^ 32)
    (hstop : stop + k < 2 ^ 32) : (ofOffsets start stop).Moves k := by
  have hexact {n : Nat} (hn : n + k < 2 ^ 32) : (k + n).toUInt32.toNat = n.toUInt32.toNat + k := by
    rw [Nat.toUInt32_eq, Nat.toUInt32_eq,
      UInt32.toNat_ofNat_of_lt' (show k + n < 2 ^ 32 by omega),
      UInt32.toNat_ofNat_of_lt' (show n < 2 ^ 32 by omega), Nat.add_comm]
  rw [Moves, shiftRight_ofOffsets]
  exact ⟨hexact hstart, hexact hstop⟩

end Span

/-! ## Moving lexemes -/

namespace Lexeme

variable (k : Nat) (l : Lexeme)

/-- The span of a lexeme is shifted with it. -/
theorem span_shift : (l.shift k).span = l.span.shiftRight k := by
  rw [span, span, Span.shiftRight_ofOffsets, shift, Nat.add_assoc]

/-- The token of a lexeme is shifted with it. -/
theorem token_shift_eq : (l.shift k).token = l.token.shiftRight k := by
  rw [token, token, Token.shiftRight, span_shift, shift]

/-- The problem of a lexeme is shifted with it. -/
theorem diagnostic?_shift : (l.shift k).diagnostic? = l.diagnostic?.map (·.shiftRight k) := by
  obtain ⟨start, text, reading⟩ := l
  have hspan := span_shift k ⟨start, text, reading⟩
  have hopening : Span.byteAt (k + start) = (Span.byteAt start).shiftRight k := by
    rw [Span.byteAt, Span.byteAt, Span.shiftRight_ofOffsets, Nat.add_assoc]
  match reading with
  | .ok kind => rfl
  | .error (.unexpected c) =>
    show some (Diagnostic.unexpectedCharacter c _) = some _
    rw [hspan]
    rfl
  | .error .unterminated =>
    show some (Diagnostic.unterminatedString _ (k + start)) = some _
    rw [hspan, Diagnostic.unterminatedString, hopening]
    rfl

variable {k l}

/-- The span of a lexeme in a text that ends `k` bytes before the end of the range of words. -/
theorem moves_span {cs : List Char} (hl : l ∈ scanFrom 0 cs)
    (hsize : Source.byteLength cs + k < 2 ^ 32) : l.span.Moves k := by
  obtain ⟨-, hlt, hle⟩ := bounds_of_mem_scanFrom hl
  rw [stop] at hlt hle
  exact Span.moves_ofOffsets (by omega) (by omega)

/-- The spans of a problem in a source that stays small enough are moved as a whole. -/
theorem moves_spans {cs : List Char} (hl : l ∈ scanFrom 0 cs)
    (hsize : Source.byteLength cs + k < 2 ^ 32) {d : Diagnostic} (hd : l.diagnostic? = some d) :
    ∀ s ∈ d.spans, s.Moves k := by
  have hspan := moves_span hl hsize
  obtain ⟨-, hlt, hle⟩ := bounds_of_mem_scanFrom hl
  have hopening : (Span.byteAt l.start).Moves k :=
    Span.moves_ofOffsets (by omega) (by omega)
  rw [diagnostic?] at hd
  split at hd
  · cases hd
  · obtain rfl := Option.some.inj hd
    simpa [Diagnostic.spans, Diagnostic.unexpectedCharacter, Diagnostic.withCode,
      Diagnostic.withLabel] using hspan
  · obtain rfl := Option.some.inj hd
    simpa [Diagnostic.spans, Diagnostic.unterminatedString, Diagnostic.withCode,
      Diagnostic.withLabel] using And.intro hspan hopening

end Lexeme

/-! ## Two texts -/

namespace Token

open Lexeme

/-- The characters of two sources with a line end between them. -/
theorem toList_append_newline (s t : String) :
    (s ++ "\n" ++ t).toList = s.toList ++ '\n' :: t.toList := by
  simp

/-- If the first source has no open text, then its lexemes come before those of the second one,
which are shifted. -/
theorem scan_append_newline {s t : String}
    (hclosed : ∀ d ∈ diagnosticsOfSource s, d.code ≠ some .unterminatedString) :
    scan (s ++ "\n" ++ t)
      = scan s ++ (scan t).map (shift (Source.byteLength s.toList + 1)) := by
  have hreading : ∀ l ∈ scanFrom 0 s.toList, l.reading ≠ .error .unterminated := by
    intro l hl hreading
    have hd : l.diagnostic? = some (.unterminatedString l.span l.start) := by
      rw [diagnostic?, hreading]
    exact hclosed _ (List.mem_filterMap.2 ⟨l, hl, hd⟩) rfl
  rw [scan, toList_append_newline, scanFrom_append_newline _ hreading, Nat.zero_add,
    ← Nat.add_zero (Source.byteLength s.toList + 1), scanFrom_add]
  rfl

/-- If every quote of a text is closed, this text, a line end and another text have the tokens of
the one text without its end mark and then those of the other, and the problems of the one text and
then those of the other. All spans of the second text, those of labels too, stand further on by the
length of the first text and the line end, and if both texts together are shorter than `2 ^ 32`
bytes then no offset is cut off. -/
theorem ofSource_append_newline {s t : String}
    (hclosed : ∀ d ∈ diagnosticsOfSource s, d.code ≠ some .unterminatedString)
    (hsize : Source.byteLength s.toList + 1 + Source.byteLength t.toList < 2 ^ 32) :
    ofSource (s ++ "\n" ++ t) = (ofSource s).dropLast
        ++ (ofSource t).map (shiftRight (Source.byteLength s.toList + 1)) ∧
    diagnosticsOfSource (s ++ "\n" ++ t) = diagnosticsOfSource s
        ++ (diagnosticsOfSource t).map (Diagnostic.shiftRight (Source.byteLength s.toList + 1)) ∧
    (∀ token ∈ ofSource t, token.span.Moves (Source.byteLength s.toList + 1)) ∧
    ∀ d ∈ diagnosticsOfSource t, ∀ span ∈ d.spans,
      span.Moves (Source.byteLength s.toList + 1) := by
  have hscan := scan_append_newline (t := t) hclosed
  generalize hk : Source.byteLength s.toList + 1 = k at hscan hsize ⊢
  have hend : endOf (s ++ "\n" ++ t) = (endOf t).shiftRight k := by
    have hlength : Source.byteLength (s ++ "\n" ++ t).toList
        = k + Source.byteLength t.toList := by
      have hnewline : '\n'.utf8Size = 1 := by decide
      rw [toList_append_newline, Source.byteLength_append, Source.byteLength_cons, hnewline, ← hk,
        Nat.add_assoc]
    rw [endOf, endOf, shiftRight, Span.shiftRight_ofOffsets, hlength]
  refine ⟨?_, ?_, ?_, ?_⟩
  · rw [ofSource, ofSource, ofSource, hscan, hend, List.dropLast_concat, List.map_append,
      List.map_append, List.map_map, List.map_map, List.map_singleton, ← List.append_assoc]
    congr 2
    exact List.map_congr_left fun l _ => token_shift_eq k l
  · rw [diagnosticsOfSource, diagnosticsOfSource, diagnosticsOfSource, hscan,
      List.filterMap_append, List.filterMap_map, List.map_filterMap]
    congr 1
    exact List.filterMap_congr fun l _ => diagnostic?_shift k l
  · intro token htoken
    rcases List.mem_append.1 htoken with htoken | htoken
    · obtain ⟨l, hl, rfl⟩ := List.mem_map.1 htoken
      exact moves_span hl (by omega)
    · obtain rfl := List.mem_singleton.1 htoken
      exact Span.moves_ofOffsets (by omega) (by omega)
  · intro d hd
    obtain ⟨l, hl, hd⟩ := List.mem_filterMap.1 hd
    exact moves_spans hl (by omega) hd

/-- The first text ends with a character that starts no token, a lone sign and an open comment; the
second has a fraction and a quote that is not closed. -/
theorem ofSource_append_newline_faulty :
    (∀ d ∈ diagnosticsOfSource "\u20ac -;(", d.code ≠ some .unterminatedString) ∧
    Source.byteLength "\u20ac -;(".toList + 1 + Source.byteLength "1.5\"".toList < 2 ^ 32 ∧
    ofSource ("\u20ac -;(" ++ "\n" ++ "1.5\"")
      = [⟨.invalid, ⟨0, 3⟩⟩, ⟨.atom (.symbol "-"), ⟨4, 5⟩⟩, ⟨.atom (.number ⟨15, 1⟩), ⟨8, 11⟩⟩,
          ⟨.invalid, ⟨11, 12⟩⟩, ⟨.eof, ⟨12, 12⟩⟩] ∧
    (diagnosticsOfSource ("\u20ac -;(" ++ "\n" ++ "1.5\"")).map Diagnostic.spans
      = [[⟨0, 3⟩, ⟨0, 3⟩], [⟨11, 12⟩, ⟨11, 12⟩]] := by
  have hproblems : diagnosticsOfSource "\u20ac -;("
      = [.unexpectedCharacter '\u20ac' ⟨0, 3⟩] := by cbv
  have hclosed : ∀ d ∈ diagnosticsOfSource "\u20ac -;(", d.code ≠ some .unterminatedString := by
    rw [hproblems]
    simp [Diagnostic.unexpectedCharacter, Diagnostic.withCode, Diagnostic.withLabel]
  have hsize : Source.byteLength "\u20ac -;(".toList + 1 + Source.byteLength "1.5\"".toList
      < 2 ^ 32 := by decide
  have hk : Source.byteLength "\u20ac -;(".toList + 1 = 8 := by decide
  have htokens : ofSource "\u20ac -;("
      = [⟨.invalid, ⟨0, 3⟩⟩, ⟨.atom (.symbol "-"), ⟨4, 5⟩⟩, ⟨.eof, ⟨7, 7⟩⟩] := by cbv
  have htokens' : ofSource "1.5\""
      = [⟨.atom (.number ⟨15, 1⟩), ⟨0, 3⟩⟩, ⟨.invalid, ⟨3, 4⟩⟩, ⟨.eof, ⟨4, 4⟩⟩] := by cbv
  have hproblems' : diagnosticsOfSource "1.5\"" = [.unterminatedString ⟨3, 4⟩ 3] := by cbv
  obtain ⟨hboth, hdiagnostics, -, -⟩ := ofSource_append_newline hclosed hsize
  rw [hk, htokens, htokens'] at hboth
  rw [hk, hproblems, hproblems'] at hdiagnostics
  refine ⟨hclosed, hsize, hboth, ?_⟩
  rw [hdiagnostics]
  rfl

end Token

end QLisp
