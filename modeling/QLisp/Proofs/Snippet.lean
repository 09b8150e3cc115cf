import Mathlib
import QLisp.Proofs.Excerpt
import QLisp.Proofs.Spelling

/-!
# Every form can be read from its own text

In a source without problems that is shorter than `2 ^ 32` bytes, the span of a form at any depth
covers a text, and that text alone is read as the same form, with spans that count from its start.
The tokens of a form stand next to each other (`Form.Spelling.of_mem_preorderAll`) and are the
tokens of the text that they span (`Lexeme.exists_excerpt`), so it remains to move spans
(`Form.Spelling.shiftLeft`) and to compare offsets in words with offsets in the text.
-/

set_option autoImplicit false

namespace QLisp

/-! ## Texts cut at bytes -/

namespace Source

/-- A byte offset between two characters of a text, or at one of its ends. -/
def IsBoundary (n : Nat) (cs : List Char) : Prop :=
  ∃ front back, cs = front ++ back ∧ byteLength front = n

/-- An offset in a text that is short enough is exact in a word. -/
theorem toNat_offset {n : Nat} {cs : List Char} (hn : n ≤ byteLength cs)
    (hsize : byteLength cs < 2 ^ 32) : n.toUInt32.toNat = n :=
  UInt32.toNat_ofNat_of_lt (Nat.lt_of_le_of_lt hn hsize)

/-- A text is split where its front part ends. -/
theorem splitBytes?_append (front back : List Char) :
    splitBytes? (byteLength front) (front ++ back) = some (front, back) := by
  induction front with
  | nil => cases back <;> rfl
  | cons c front ih =>
    have hpos := c.utf8Size_pos
    have hne : byteLength (c :: front) ≠ 0 := by
      rw [byteLength_cons]
      omega
    have hle : c.utf8Size ≤ byteLength (c :: front) := Nat.le_add_right _ _
    have hsub : byteLength (c :: front) - c.utf8Size = byteLength front :=
      Nat.add_sub_cancel_left _ _
    rw [List.cons_append, splitBytes?, if_neg hne, if_pos hle, hsub, ih]
    rfl

end Source

namespace Span

/-- The snippet of a span that covers a text is the text. -/
theorem snippet?_of_append {span : Span} {source : String} {front text back : List Char}
    (hsource : source.toList = front ++ (text ++ back))
    (hstart : span.start.toNat = Source.byteLength front)
    (hstop : span.stop.toNat = Source.byteLength front + Source.byteLength text) :
    span.snippet? source = some (String.ofList text) := by
  have hle : span.start ≤ span.stop := by
    rw [UInt32.le_iff_toNat_le]
    omega
  have hlength : span.length = Source.byteLength text := by
    rw [length]
    omega
  rw [snippet?, if_pos hle, hsource, hstart, hlength, Source.splitBytes?_append]
  simp [Source.splitBytes?_append]

/-- A span that starts and stops `k` bytes earlier. -/
def shiftLeft (k : UInt32) (s : Span) : Span :=
  ⟨s.start - k, s.stop - k⟩

/-- Shifting to the left undoes a shift of the ends. -/
theorem shiftLeft_ofOffsets (k start stop : Nat) :
    (ofOffsets (k + start) (k + stop)).shiftLeft k.toUInt32 = ofOffsets start stop := by
  simp [shiftLeft, ofOffsets]

/-- A span that does not start or stop before an offset. -/
def From (k : UInt32) (s : Span) : Prop :=
  k ≤ s.start ∧ k ≤ s.stop

/-- A shift keeps the order of offsets behind it. -/
theorem sub_le_sub_iff {a b k : UInt32} (ha : k ≤ a) (hb : k ≤ b) : a - k ≤ b - k ↔ a ≤ b := by
  rw [UInt32.le_iff_toNat_le, UInt32.le_iff_toNat_le, UInt32.toNat_sub_of_le _ _ ha,
    UInt32.toNat_sub_of_le _ _ hb]
  rw [UInt32.le_iff_toNat_le] at ha hb
  omega

/-- Covering and shifting can be done in either order. -/
theorem cover_shiftLeft {a b : Span} {k : UInt32} (ha : a.From k) (hb : b.From k) :
    (a.cover b).shiftLeft k = (a.shiftLeft k).cover (b.shiftLeft k) := by
  simp only [cover, shiftLeft, sub_le_sub_iff ha.1 hb.1, sub_le_sub_iff ha.2 hb.2]
  congr 1 <;> split <;> rfl

end Span

/-- A token that stands `k` bytes earlier. -/
def Token.shiftLeft (k : UInt32) (t : Token) : Token :=
  { t with span := t.span.shiftLeft k }

namespace Form

mutual

/-- A form of which all spans stand `k` bytes earlier. -/
def shiftLeft (k : UInt32) : Form → Form
  | atom a span => .atom a (span.shiftLeft k)
  | group d items span => .group d (shiftLeftAll k items) (span.shiftLeft k)

/-- Forms of which all spans stand `k` bytes earlier. -/
def shiftLeftAll (k : UInt32) : List Form → List Form
  | [] => []
  | f :: fs => f.shiftLeft k :: shiftLeftAll k fs

end

/-- What spells forms spells them when both are shifted. -/
theorem Spelling.shiftLeft {fs : List Form} {ts : List Token} (h : Spelling fs ts) {k : UInt32}
    (hk : ∀ t ∈ ts, t.span.From k) :
    Spelling (shiftLeftAll k fs) (ts.map (Token.shiftLeft k)) := by
  induction h with
  | nil => exact .nil
  | atom a span _ ih => exact .atom a (span.shiftLeft k) (ih fun t ht => hk t (by simp [ht]))
  | @group d opened closed items fs us ts _ _ ihitems ih =>
    have hopened := hk ⟨.opener d, opened⟩ (by simp)
    have hclosed := hk ⟨.closer d, closed⟩ (by simp)
    have hitems := ihitems fun t ht => hk t (by simp [ht])
    have hafter := ih fun t ht => hk t (by simp [ht])
    rw [shiftLeftAll, Form.shiftLeft, Span.cover_shiftLeft hopened hclosed, List.map_cons,
      List.map_append, List.map_cons]
    exact .group d (opened.shiftLeft k) (closed.shiftLeft k) hitems hafter

end Form

/-! ## Tokens of a source -/

namespace Lexeme

/-- Shifting a token to the left undoes the shift of its lexeme. -/
theorem token_shift (k : Nat) (l : Lexeme) :
    (l.shift k).token.shiftLeft k.toUInt32 = l.token := by
  have hstop : k + l.start + Source.byteLength l.text = k + (l.start + Source.byteLength l.text) :=
    Nat.add_assoc _ _ _
  simp only [token, shift, span, Token.shiftLeft, hstop, Span.shiftLeft_ofOffsets]

/-- Consecutive tokens of a source are the tokens of the text from the start of the first of them to
the stop of the last, up to where they stand. -/
theorem exists_excerpt {source : String} {ts : List Token} {t u : Token}
    (h : ts <:+: (scan source).map token) (ht : ts.head? = some t) (hu : ts.getLast? = some u) :
    ∃ front text back, source.toList = front ++ (text ++ back) ∧
      t.span.start = (Source.byteLength front).toUInt32 ∧
      u.span.stop = (Source.byteLength front + Source.byteLength text).toUInt32 ∧
      (scan (String.ofList text)).map token = ts.map (Token.shiftLeft t.span.start) := by
  obtain ⟨before, after, hscan⟩ := h
  obtain ⟨ls', ls₂, hls', hfront, -⟩ := List.map_eq_append_iff.1 hscan.symm
  obtain ⟨ls₁, ls, rfl, -, rfl⟩ := List.map_eq_append_iff.1 hfront
  cases ls with
  | nil => cases ht
  | cons l ls =>
    rw [List.map_cons, List.head?_cons] at ht
    obtain rfl := Option.some.inj ht
    rw [List.getLast?_map, Option.map_eq_some_iff] at hu
    obtain ⟨last, hlast, rfl⟩ := hu
    obtain ⟨front, text, back, hsource, hstart, hstop, htext⟩ := scanFrom_infix hls' hlast
    rw [Nat.zero_add] at hstart hstop
    have hshift : (scan (String.ofList text)).map (shift l.start) = l :: ls := by
      rw [scan, String.toList_ofList, ← scanFrom_add, Nat.add_zero, htext]
    have hword : l.token.span.start = l.start.toUInt32 := rfl
    refine ⟨front, text, back, hsource, ?_, ?_, ?_⟩
    · rw [hstart, hword]
    · rw [hstop]
      rfl
    · rw [← hshift, List.map_map, List.map_map, hword]
      refine List.map_congr_left fun l' _ => ?_
      exact (token_shift l.start l').symm

/-- The tokens of a source that is short enough for its offsets stand one after the other. -/
theorem inOrder_scan {source : String} (h : Source.byteLength source.toList < 2 ^ 32) :
    Token.InOrder ((scan source).map token) := by
  have hbounds {l : Lexeme} (hl : l ∈ scan source) :
      l.token.span.start.toNat = l.start ∧ l.token.span.stop.toNat = l.stop ∧ l.start < l.stop := by
    obtain ⟨-, hlt, hle⟩ := bounds_of_mem_scanFrom hl
    rw [Nat.zero_add] at hle
    exact ⟨Source.toNat_offset (Nat.le_trans (Nat.le_of_lt hlt) hle) h,
      Source.toNat_offset hle h, hlt⟩
  constructor
  · intro t ht
    obtain ⟨l, hl, rfl⟩ := List.mem_map.1 ht
    obtain ⟨hstart, hstop, hlt⟩ := hbounds hl
    rw [UInt32.lt_iff_toNat_lt, hstart, hstop]
    exact hlt
  · rw [List.pairwise_map]
    refine (pairwise_scanFrom 0 source.toList).imp_of_mem ?_
    intro a b ha hb hab
    obtain ⟨-, hstop, -⟩ := hbounds ha
    obtain ⟨hstart, -, -⟩ := hbounds hb
    rw [Span.Before, UInt32.le_iff_toNat_le, hstop, hstart]
    exact hab

end Lexeme

/-- In order, no token starts before the first one. -/
theorem Token.InOrder.from_head {ts : List Token} {t : Token} (h : InOrder ts)
    (ht : ts.head? = some t) : ∀ u ∈ ts, u.span.From t.span.start := by
  obtain ⟨ts, rfl⟩ := List.head?_eq_some_iff.1 ht
  intro u hu
  have hlt := h.nonempty u hu
  have hle : t.span.start ≤ u.span.start := by
    rcases List.mem_cons.1 hu with rfl | hu
    · exact UInt32.le_refl _
    · have hbefore : t.span.stop ≤ u.span.start := List.rel_of_pairwise_cons h.pairwise hu
      exact UInt32.le_trans (UInt32.le_of_lt (h.nonempty t List.mem_cons_self)) hbefore
  exact ⟨hle, UInt32.le_trans hle (UInt32.le_of_lt hlt)⟩

namespace SourceFile

/-- A form that is spelled by consecutive tokens of a source is read from the text that its span
covers. -/
theorem reads_alone_of_spelling {source : String} {f : Form} {ts : List Token}
    (hsize : Source.byteLength source.toList < 2 ^ 32) (hf : Form.Spelling [f] ts)
    (hts : ts <:+: (Lexeme.scan source).map Lexeme.token) :
    Source.IsBoundary f.span.start.toNat source.toList ∧
      Source.IsBoundary f.span.stop.toNat source.toList ∧
      ∃ text, f.span.snippet? source = some text ∧ (ofSource text).2 = [] ∧
        (ofSource text).1.forms = [f.shiftLeft f.span.start] := by
  have horder := (Lexeme.inOrder_scan hsize).sublist hts.sublist
  obtain ⟨t, u, ht, hu, hspan⟩ := hf.span_eq horder
  obtain ⟨front, text, back, hsource, hstart, hstop, hscan⟩ := Lexeme.exists_excerpt hts ht hu
  have hlength := congrArg Source.byteLength hsource
  rw [Source.byteLength_append, Source.byteLength_append] at hlength
  have hstart' : f.span.start.toNat = Source.byteLength front := by
    rw [hspan, hstart]
    exact Source.toNat_offset (by omega) hsize
  have hstop' : f.span.stop.toNat = Source.byteLength front + Source.byteLength text := by
    rw [hspan, hstop]
    exact Source.toNat_offset (by omega) hsize
  have hmoved := hf.shiftLeft (horder.from_head ht)
  rw [← hscan] at hmoved
  obtain ⟨hclean, hforms⟩ := ofSource_of_spelling hmoved
  refine ⟨⟨front, text ++ back, hsource, hstart'.symm⟩, ⟨front ++ text, back, ?_, ?_⟩,
    String.ofList text, Span.snippet?_of_append hsource hstart' hstop', hclean, ?_⟩
  · rw [hsource, List.append_assoc]
  · rw [hstop', Source.byteLength_append]
  · rw [hforms, hspan]
    rfl

/-- In a source without problems that is shorter than `2 ^ 32` bytes, forms next to each other stand
one after the other, and every form at any depth starts and stops between characters, is read
without problems from the text that its span covers, alone and with its spans moved, and holds its
items strictly inside of its own span. -/
theorem every_form_reads_alone {source : String}
    (hsize : Source.byteLength source.toList < 2 ^ 32) (hclean : (ofSource source).2 = []) :
    ((ofSource source).1.forms.Pairwise fun f g => f.span.Before g.span) ∧
    ∀ (depth : Nat) (f : Form), (depth, f) ∈ Form.preorderAll 0 (ofSource source).1.forms →
      Source.IsBoundary f.span.start.toNat source.toList ∧
      Source.IsBoundary f.span.stop.toNat source.toList ∧
      (∃ text, f.span.snippet? source = some text ∧ (ofSource text).2 = [] ∧
        (ofSource text).1.forms = [f.shiftLeft f.span.start]) ∧
      ∀ (d : Delimiter) (items : List Form) (span : Span), f = .group d items span →
        (items.Pairwise fun g h => g.span.Before h.span) ∧
        ∀ g ∈ items, span.start < g.span.start ∧ g.span.stop < span.stop := by
  have hspelling := spelling_ofSource hclean
  have horder := Lexeme.inOrder_scan hsize
  refine ⟨hspelling.pairwise_before horder, ?_⟩
  intro depth f hf
  obtain ⟨ts, hts, hspelled⟩ := hspelling.of_mem_preorderAll hf
  obtain ⟨hstart, hstop, halone⟩ := reads_alone_of_spelling hsize hspelled hts
  refine ⟨hstart, hstop, halone, ?_⟩
  rintro d items span rfl
  exact hspelled.items_inside (horder.sublist hts.sublist)

/-- A number with a symbol right after it and a text that is longer in bytes than in characters,
after a comment that is too. -/
theorem every_form_reads_alone_nested :
    Source.byteLength "; \u20ac\n(f -1.5x \x7b\"\u00f6\"\x7d)".toList < 2 ^ 32 ∧
    (ofSource "; \u20ac\n(f -1.5x \x7b\"\u00f6\"\x7d)").2 = [] ∧
    ∃ text, (⟨15, 21⟩ : Span).snippet? "; \u20ac\n(f -1.5x \x7b\"\u00f6\"\x7d)" = some text ∧
      (ofSource text).2 = [] ∧
      (ofSource text).1.forms = [.group .brace [.atom (.text "\u00f6") ⟨1, 5⟩] ⟨0, 6⟩] := by
  have hsize : Source.byteLength "; \u20ac\n(f -1.5x \x7b\"\u00f6\"\x7d)".toList < 2 ^ 32 := by
    decide
  have hclean : (ofSource "; \u20ac\n(f -1.5x \x7b\"\u00f6\"\x7d)").2 = [] := by cbv
  have hforms : (ofSource "; \u20ac\n(f -1.5x \x7b\"\u00f6\"\x7d)").1.forms
      = [.group .paren [.atom (.symbol "f") ⟨7, 8⟩, .atom (.number ⟨-15, 1⟩) ⟨9, 13⟩,
          .atom (.symbol "x") ⟨13, 14⟩,
          .group .brace [.atom (.text "\u00f6") ⟨16, 20⟩] ⟨15, 21⟩] ⟨6, 22⟩] := by cbv
  have hmem : (1, Form.group .brace [.atom (.text "\u00f6") ⟨16, 20⟩] ⟨15, 21⟩) ∈
      Form.preorderAll 0 (ofSource "; \u20ac\n(f -1.5x \x7b\"\u00f6\"\x7d)").1.forms := by
    rw [hforms]
    simp [Form.preorderAll, Form.preorder]
  exact ⟨hsize, hclean, ((every_form_reads_alone hsize hclean).2 1 _ hmem).2.2.1⟩

end SourceFile

end QLisp
