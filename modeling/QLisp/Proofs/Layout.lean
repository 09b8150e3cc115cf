import Mathlib
import QLisp.Proofs.Snippet

/-!
# The scan loses nothing

A source consists of gaps and lexemes by turns. `Lexeme.Gap` describes gaps by what they are made
of: blanks, and comments that run up to the next line end or to the end of the source.
`Lexeme.Laid` describes how a text is laid out, and `laid_scanFrom` says that the scan finds such a
layout. What the scan says about offsets is then read off the layout, once for the gaps, once for
the lexemes and once for both together.
-/

set_option autoImplicit false

namespace QLisp

namespace Lexeme

/-- Blanks and comments that are followed by `rest`. A comment starts with a semicolon and runs up
to the next line end, or to the end of the text. -/
inductive Gap : List Char → List Char → Prop
  | nil (rest : List Char) : Gap [] rest
  | blank {c : Char} {gap rest : List Char} (hc : Text.isBlank c = true) (h : Gap gap rest) :
    Gap (c :: gap) rest
  | comment {body gap rest : List Char} (hbody : ∀ c ∈ body, endsComment c = false)
    (hend : ∀ c, (gap ++ rest).head? = some c → endsComment c = true) (h : Gap gap rest) :
    Gap (';' :: (body ++ gap)) rest

/-- What ends a comment is blank. -/
theorem isBlank_of_endsComment {c : Char} (h : endsComment c = true) : Text.isBlank c = true := by
  rcases Bool.or_eq_true_iff.1 h with h | h
  · rw [beq_iff_eq.1 h]
    decide
  · rw [beq_iff_eq.1 h]
    decide

/-- What the scan skips is a gap; inside of a comment, it is the rest of the comment and a gap. -/
theorem gap_splitGap (cs : List Char) :
    Gap (splitGap false cs).1 (splitGap false cs).2 ∧
    ∃ body gap, (splitGap true cs).1 = body ++ gap ∧ (∀ c ∈ body, endsComment c = false) ∧
      (∀ c, (gap ++ (splitGap true cs).2).head? = some c → endsComment c = true) ∧
      Gap gap (splitGap true cs).2 := by
  induction cs with
  | nil => exact ⟨.nil [], [], [], rfl, by simp, by simp [splitGap], .nil []⟩
  | cons c cs ih =>
    obtain ⟨hgap, body, gap, hsplit, hbody, hend, hinside⟩ := ih
    constructor
    · unfold splitGap
      rw [if_neg (by simp)]
      split
      · next hblank => exact .blank hblank hgap
      split
      · next hsemicolon =>
        obtain rfl := beq_iff_eq.1 hsemicolon
        dsimp only
        rw [hsplit]
        exact .comment hbody hend hinside
      · exact .nil _
    · -- The character that ends a comment is not part of it, but a blank of the gap after it.
      by_cases hc : endsComment c = true
      · have hblank := isBlank_of_endsComment hc
        have hopen : splitGap true (c :: cs)
            = (c :: (splitGap false cs).1, (splitGap false cs).2) := by
          simp [splitGap, hc, hblank]
        rw [hopen]
        refine ⟨[], c :: (splitGap false cs).1, rfl, by simp, ?_, .blank hblank hgap⟩
        intro d hd
        obtain rfl : c = d := Option.some.inj hd
        exact hc
      · have hopen : splitGap true (c :: cs)
            = (c :: (splitGap true cs).1, (splitGap true cs).2) := by
          simp [splitGap, hc]
        rw [hopen, hsplit]
        refine ⟨c :: body, gap, rfl, ?_, hend, hinside⟩
        intro d hd
        rcases List.mem_cons.1 hd with rfl | hd
        · exact Bool.eq_false_iff.2 hc
        · exact hbody d hd

/-- The part of a source after its beginning `front`, as gaps and lexemes by turns. -/
inductive Laid (source : String) : List Char → List Lexeme → Prop
  | last {front gap : List Char} (hsource : source.toList = front ++ gap) (hgap : Gap gap []) :
    Laid source front []
  | next {front gap rest : List Char} {l : Lexeme} {ls : List Lexeme}
    (hsource : source.toList = front ++ gap ++ (l.text ++ rest)) (hgap : Gap gap (l.text ++ rest))
    (hstart : l.start = Source.byteLength (front ++ gap))
    (h : Laid source (front ++ gap ++ l.text) ls) : Laid source front (l :: ls)

/-- The scan finds the layout of a source. -/
theorem laid_scanFrom {source : String} (front : List Char) {cs : List Char} {start : Nat}
    (hsource : source.toList = front ++ cs) (hstart : start = Source.byteLength front) :
    Laid source front (scanFrom start cs) := by
  fun_induction scanFrom start cs generalizing front with
  | case1 start cs gap hsplit =>
    have hgap := (gap_splitGap cs).1
    have hcs := splitGap_append false cs
    rw [hsplit] at hgap hcs
    rw [← hcs, List.append_nil] at hsource
    exact .last hsource hgap
  | case2 start cs gap c rest hsplit here piece ih =>
    have hgap := (gap_splitGap cs).1
    have hcs := splitGap_append false cs
    rw [hsplit, ← cut_append c rest] at hgap hcs
    rw [← hcs, ← List.append_assoc] at hsource
    have hhere : here = Source.byteLength (front ++ gap) := by
      rw [Source.byteLength_append, ← hstart]
    refine .next (l := ⟨here, piece.text, piece.reading⟩) hsource hgap hhere (ih _ ?_ ?_)
    · rw [hsource, List.append_assoc (front ++ gap)]
    · rw [Source.byteLength_append (front ++ gap), hhere]

end Lexeme

/-! ## The spans of a layout -/

namespace Span

/-- A span covers the text `text` of a source, which stands between `front` and `back`. -/
structure Covers (s : Span) (source : String) (front text back : List Char) : Prop where
  source_eq : source.toList = front ++ (text ++ back)
  start_eq : s.start.toNat = Source.byteLength front
  stop_eq : s.stop.toNat = Source.byteLength front + Source.byteLength text

/-- The spans between those of a list, each from the stop of one to the start of the next; the first
starts at `start`. -/
def gaps (start : UInt32) : List Span → List Span
  | [] => []
  | s :: ss => ⟨start, s.start⟩ :: gaps s.stop ss

/-- The spans of a list, each after the span between it and the one before. -/
def tiles (start : UInt32) : List Span → List Span
  | [] => []
  | s :: ss => ⟨start, s.start⟩ :: s :: tiles s.stop ss

namespace Covers

variable {s : Span} {source : String} {front text back : List Char}

/-- A span covers the part of a source between its ends. -/
theorem of_append (hsource : source.toList = front ++ (text ++ back))
    (hsize : Source.byteLength source.toList < 2 ^ 32)
    (hstart : s.start = (Source.byteLength front).toUInt32)
    (hstop : s.stop = (Source.byteLength (front ++ text)).toUInt32) :
    s.Covers source front text back := by
  have hlength := congrArg Source.byteLength hsource
  simp only [Source.byteLength_append] at hlength hstop
  refine ⟨hsource, ?_, ?_⟩
  · rw [hstart]
    exact Source.toNat_offset (by omega) hsize
  · rw [hstop]
    exact Source.toNat_offset (by omega) hsize

/-- The snippet of a span is the text that it covers. -/
theorem snippet?_eq (h : s.Covers source front text back) :
    s.snippet? source = some (String.ofList text) :=
  snippet?_of_append h.source_eq h.start_eq h.stop_eq

/-- A span that covers a text has its ends between characters. -/
theorem isBoundary (h : s.Covers source front text back) :
    Source.IsBoundary s.start.toNat source.toList ∧
      Source.IsBoundary s.stop.toNat source.toList := by
  refine ⟨⟨front, text ++ back, h.source_eq, h.start_eq.symm⟩, ⟨front ++ text, back, ?_, ?_⟩⟩
  · rw [h.source_eq, List.append_assoc]
  · rw [Source.byteLength_append, h.stop_eq]

end Covers

end Span

namespace Lexeme

/-- A lexeme starts behind what comes before it. -/
theorem start_span {l : Lexeme} {front : List Char} (h : l.start = Source.byteLength front) :
    l.span.start = (Source.byteLength front).toUInt32 := by
  rw [← h]
  rfl

/-- A lexeme stops behind its text. -/
theorem stop_span {l : Lexeme} {front : List Char} (h : l.start = Source.byteLength front) :
    l.span.stop = (Source.byteLength (front ++ l.text)).toUInt32 := by
  rw [Source.byteLength_append, ← h]
  rfl

/-- The spans of lexemes and of the end mark of their source. -/
def marks (source : String) (ls : List Lexeme) : List Span :=
  ls.map span ++ [(Token.endOf source).span]

namespace Laid

variable {source : String} {front gap rest : List Char} {l : Lexeme} {ls : List Lexeme}
  (hsize : Source.byteLength source.toList < 2 ^ 32)

include hsize

/-- The span of a lexeme covers its text. -/
theorem covers_text (hsource : source.toList = front ++ gap ++ (l.text ++ rest))
    (hstart : l.start = Source.byteLength (front ++ gap)) :
    l.span.Covers source (front ++ gap) l.text rest :=
  .of_append hsource hsize (start_span hstart) (stop_span hstart)

/-- The span before a lexeme covers the gap. -/
theorem covers_before (hsource : source.toList = front ++ gap ++ (l.text ++ rest))
    (hstart : l.start = Source.byteLength (front ++ gap)) :
    Span.Covers ⟨(Source.byteLength front).toUInt32, l.span.start⟩ source front gap
      (l.text ++ rest) := by
  rw [List.append_assoc] at hsource
  exact .of_append hsource hsize rfl (start_span hstart)

/-- The span behind the last lexeme covers the gap at the end. -/
theorem covers_after (hsource : source.toList = front ++ gap) :
    Span.Covers ⟨(Source.byteLength front).toUInt32, (Token.endOf source).span.start⟩ source front
      gap [] := by
  refine .of_append ?_ hsize rfl ?_
  · rw [hsource, List.append_nil]
  · rw [← hsource]
    rfl

/-- The end of a source covers nothing. -/
theorem covers_end : (Token.endOf source).span.Covers source source.toList [] [] := by
  refine .of_append ?_ hsize rfl ?_
  · rw [List.append_nil, List.append_nil]
  · rw [List.append_nil]
    rfl

/-- Every lexeme of a layout stands where its span says. -/
theorem covers_lexeme (h : Laid source front ls) :
    ∀ l ∈ ls, ∃ front back, l.span.Covers source front l.text back := by
  induction h with
  | last => simp
  | next hsource _ hstart _ ih =>
    intro k hk
    rcases List.mem_cons.1 hk with rfl | hk
    · exact ⟨_, _, covers_text hsize hsource hstart⟩
    · exact ih k hk

/-- Between the lexemes of a layout, before the first and after the last of them, are gaps. -/
theorem covers_gap (h : Laid source front ls) :
    ∀ s ∈ Span.gaps (Source.byteLength front).toUInt32 (marks source ls),
      ∃ front text back, s.Covers source front text back ∧ Gap text back := by
  induction h with
  | last hsource hgap =>
    intro s hs
    obtain rfl := List.mem_singleton.1 hs
    exact ⟨_, _, [], covers_after hsize hsource, hgap⟩
  | next hsource hgap hstart _ ih =>
    intro s hs
    rcases List.mem_cons.1 hs with rfl | hs
    · exact ⟨_, _, _, covers_before hsize hsource hstart, hgap⟩
    · refine ih s ?_
      rw [← stop_span hstart]
      exact hs

/-- The texts of the lexemes of a layout and of the gaps between them, put together, are the part of
the source that is laid out. -/
theorem join_tiles (h : Laid source front ls) :
    ∃ texts, (Span.tiles (Source.byteLength front).toUInt32 (marks source ls)).mapM
        (fun s => s.snippet? source) = some texts ∧
      String.ofList front ++ String.join texts = source := by
  induction h with
  | @last front gap hsource _ =>
    have hgap := (covers_after hsize hsource).snippet?_eq
    have hend := (covers_end hsize).snippet?_eq
    refine ⟨[String.ofList gap, ""], ?_, ?_⟩
    · simp [marks, Span.tiles, hgap, hend]
    · rw [← String.toList_inj, hsource]
      simp
  | @next front gap rest l ls hsource _ hstart _ ih =>
    have hgap := (covers_before hsize hsource hstart).snippet?_eq
    have hlexeme := (covers_text hsize hsource hstart).snippet?_eq
    obtain ⟨texts, htexts, hjoin⟩ := ih
    rw [← stop_span hstart] at htexts
    refine ⟨String.ofList gap :: String.ofList l.text :: texts, ?_, ?_⟩
    · rw [marks] at htexts ⊢
      simp [Span.tiles, hgap, hlexeme, htexts]
    · rw [← hjoin]
      simp [String.append_assoc]

end Laid

end Lexeme

namespace Token

/-- Nothing of a source shorter than `2 ^ 32` bytes is lost. Its tokens end with exactly one end
mark, which is empty and stands at the end of the source. The others are not empty, start and stop
between characters, and stand one after the other. What is before, between and after them consists
of blanks and of comments, and together with the texts of the tokens it is the source. -/
theorem ofSource_loses_nothing {source : String}
    (hsize : Source.byteLength source.toList < 2 ^ 32) :
    ∃ (tokens : List Token) (last : Token), ofSource source = tokens ++ [last] ∧
      (last.kind = .eof ∧ last.span.start.toNat = Source.byteLength source.toList ∧
        last.span.stop = last.span.start) ∧
      (∀ t ∈ tokens, t.kind ≠ .eof ∧ t.span.start < t.span.stop ∧
        Source.IsBoundary t.span.start.toNat source.toList ∧
        Source.IsBoundary t.span.stop.toNat source.toList) ∧
      (tokens.Pairwise fun t u => t.span.Before u.span) ∧
      (∀ gap ∈ Span.gaps 0 ((ofSource source).map span), ∃ front text back,
        gap.Covers source front text back ∧ Lexeme.Gap text back) ∧
      ∃ texts, (Span.tiles 0 ((ofSource source).map span)).mapM (fun s => s.snippet? source)
          = some texts ∧
        String.join texts = source := by
  have hlaid : Lexeme.Laid source [] (Lexeme.scan source) := Lexeme.laid_scanFrom [] rfl rfl
  have hmarks : (ofSource source).map span = Lexeme.marks source (Lexeme.scan source) := by
    rw [ofSource, List.map_append, List.map_map]
    rfl
  have horder := Lexeme.inOrder_scan hsize
  refine ⟨(Lexeme.scan source).map Lexeme.token, endOf source, rfl, ⟨rfl, ?_, rfl⟩, ?_,
    horder.pairwise, ?_, ?_⟩
  · exact Source.toNat_offset (Nat.le_refl _) hsize
  · intro t ht
    have hnonempty := horder.nonempty t ht
    obtain ⟨l, hl, rfl⟩ := List.mem_map.1 ht
    obtain ⟨front, back, hcovers⟩ := Lexeme.Laid.covers_lexeme hsize hlaid l hl
    exact ⟨Lexeme.kind_token_ne_eof hl, hnonempty, hcovers.isBoundary⟩
  · rw [hmarks]
    exact Lexeme.Laid.covers_gap hsize hlaid
  · rw [hmarks]
    obtain ⟨texts, htexts, hjoin⟩ := Lexeme.Laid.join_tiles hsize hlaid
    exact ⟨texts, htexts, by simpa using hjoin⟩

/-- A character that starts no token, a comment that ends at a carriage return, and a text that is
not closed and ends with a backslash. -/
theorem ofSource_loses_nothing_unclosed :
    Source.byteLength "\u20ac ;\u00e9\r\"a\\".toList < 2 ^ 32 ∧
    (ofSource "\u20ac ;\u00e9\r\"a\\").map span = [⟨0, 3⟩, ⟨8, 11⟩, ⟨11, 11⟩] ∧
    (∃ front text back, (⟨3, 8⟩ : Span).Covers "\u20ac ;\u00e9\r\"a\\" front text back ∧
      Lexeme.Gap text back) ∧
    ∃ texts, ([⟨0, 0⟩, ⟨0, 3⟩, ⟨3, 8⟩, ⟨8, 11⟩, ⟨11, 11⟩, ⟨11, 11⟩] : List Span).mapM
        (fun s => s.snippet? "\u20ac ;\u00e9\r\"a\\") = some texts ∧
      String.join texts = "\u20ac ;\u00e9\r\"a\\" := by
  have hsize : Source.byteLength "\u20ac ;\u00e9\r\"a\\".toList < 2 ^ 32 := by decide
  have hspans : (ofSource "\u20ac ;\u00e9\r\"a\\").map span = [⟨0, 3⟩, ⟨8, 11⟩, ⟨11, 11⟩] := by
    cbv
  obtain ⟨_, _, _, _, _, _, hgaps, htexts⟩ := ofSource_loses_nothing hsize
  rw [hspans] at hgaps htexts
  exact ⟨hsize, hspans, hgaps ⟨3, 8⟩ (by simp [Span.gaps]), htexts⟩

end Token

end QLisp
