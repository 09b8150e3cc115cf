import Mathlib
import QLisp.Eval.Program
import QLisp.Proofs.Snippet

/-!
# Problems and their tokens

Every problem of a source is about a token of its own: the scan reports invalid tokens, and the
nesting reports delimiters. A delimiter is never reported twice, because a group that is given up is
no longer open, and a closing delimiter that is reported is skipped. `FrameMachine.Blames` states
this as what the machine that reads forms keeps: the tokens reported so far and the opening
delimiters of the groups that are open are different delimiters among the tokens seen so far.

Tokens start at different places, so the problems of a source, sorted by their places, are in strict
order, and there is a first one, which is the error of reading the source.
-/

set_option autoImplicit false

namespace QLisp

/-- The kinds of tokens that a code of problems is about. -/
def Code.Concerns : Code → TokenKind → Prop
  | unexpectedCharacter, kind => kind = .invalid
  | unterminatedString, kind => kind = .invalid
  | unclosedDelimiter, kind => ∃ d, kind = .opener d
  | unexpectedClosingDelimiter, kind => ∃ d, kind = .closer d
  | mismatchedDelimiter, kind => ∃ d, kind = .closer d
  | _, _ => False

/-- A problem is about a token: it has the span of the token, and its code is about tokens of that
kind. -/
structure Diagnostic.About (d : Diagnostic) (t : Token) : Prop where
  span_eq : d.span = t.span
  concerns : ∃ code, d.code = some code ∧ code.Concerns t.kind

namespace Token

/-- Where a token starts, in bytes. -/
def position (t : Token) : Nat :=
  t.span.start.toNat

/-- Tokens that stand one after the other start one after the other. -/
theorem InOrder.pairwise_position {ts : List Token} (h : InOrder ts) :
    ts.Pairwise fun t u => t.position < u.position := by
  refine h.pairwise.imp_of_mem ?_
  intro t u ht _ hbefore
  exact UInt32.lt_iff_toNat_lt.1 (UInt32.lt_of_lt_of_le (h.nonempty t ht) hbefore)

end Token

/-! ## The nesting -/

/-- The token that opened a frame. -/
def Frame.token (frame : Frame) : Token :=
  ⟨.opener frame.kind, frame.opened⟩

namespace FrameMachine

/-- The problems are about different delimiters among the tokens `seen`, and none of these is the
opening delimiter of a group that is open. -/
def Blames (m : FrameMachine) (seen : List Token) : Prop :=
  ∃ blamed, List.Forall₂ Diagnostic.About m.diagnostics blamed ∧
    (blamed ++ m.frames.map Frame.token).Subperm (seen.filter (·.kind.isDelimiter))

/-- A form in the innermost frame opens none. -/
theorem map_token_append (m : FrameMachine) (f : Form) :
    (m.append f).frames.map Frame.token = m.frames.map Frame.token := by
  unfold append
  cases m.frames <;> rfl

namespace Blames

variable {m : FrameMachine} {seen : List Token}

/-- A form in the innermost frame blames nothing. -/
theorem append (h : m.Blames seen) (f : Form) : (m.append f).Blames seen := by
  obtain ⟨blamed, habout, hsub⟩ := h
  refine ⟨blamed, ?_, ?_⟩
  · rw [diagnostics_append]
    exact habout
  · rw [map_token_append]
    exact hsub

/-- A token that is neither reported nor opens a group is only seen. -/
theorem skip (h : m.Blames seen) (t : Token) : m.Blames (seen ++ [t]) := by
  obtain ⟨blamed, habout, hsub⟩ := h
  refine ⟨blamed, habout, hsub.trans ?_⟩
  rw [List.filter_append]
  exact (List.sublist_append_left _ _).subperm

/-- A delimiter that was not seen before is another one than those before, wherever it is put. -/
theorem subperm_see {blamed opened : List Token}
    (h : (blamed ++ opened).Subperm (seen.filter (·.kind.isDelimiter))) {t : Token}
    (ht : t.kind.isDelimiter = true) :
    (blamed ++ t :: opened).Subperm ((seen ++ [t]).filter (·.kind.isDelimiter)) := by
  have hself : [t].filter (·.kind.isDelimiter) = [t] := List.filter_cons_of_pos ht
  have hperm : (blamed ++ t :: opened).Perm ((blamed ++ opened) ++ [t]) :=
    List.perm_middle.trans (List.perm_append_singleton _ _).symm
  rw [List.filter_append, hself]
  exact hperm.subperm.trans (h.append (List.Subperm.refl _))

/-- A delimiter that is reported is blamed. -/
theorem report (h : m.Blames seen) {d : Diagnostic} {t : Token} (hd : d.About t)
    (ht : t.kind.isDelimiter = true) : (m.report d).Blames (seen ++ [t]) := by
  obtain ⟨blamed, habout, hsub⟩ := h
  refine ⟨blamed ++ [t], List.rel_append habout (.cons hd .nil), ?_⟩
  rw [List.append_assoc]
  exact subperm_see hsub ht

/-- The opening delimiter of a new frame is not blamed yet. -/
theorem enter (h : m.Blames seen) (d : Delimiter) (span : Span) :
    (m.enter d span).Blames (seen ++ [⟨.opener d, span⟩]) := by
  obtain ⟨blamed, habout, hsub⟩ := h
  exact ⟨blamed, habout, subperm_see hsub rfl⟩

/-- A frame that is closed blames nothing. -/
theorem leave (h : m.Blames seen) (stop : Span) : (m.leave stop).Blames seen := by
  unfold FrameMachine.leave
  cases hm : m.frames with
  | nil => exact h
  | cons frame outer =>
    refine Blames.append (m := { m with frames := outer }) ?_ _
    obtain ⟨blamed, habout, hsub⟩ := h
    refine ⟨blamed, habout, List.Subperm.trans (List.Sublist.subperm ?_) hsub⟩
    rw [hm]
    exact (List.sublist_cons_self _ _).append_left blamed

/-- A frame that is given up blames its opening delimiter. -/
theorem abandon (h : m.Blames seen) : m.abandon.Blames seen := by
  unfold FrameMachine.abandon
  cases hm : m.frames with
  | nil => exact h
  | cons frame outer =>
    simp only [FrameMachine.leave, FrameMachine.report, hm]
    refine Blames.append ?_ _
    obtain ⟨blamed, habout, hsub⟩ := h
    have hd : Diagnostic.About (.unclosedDelimiter frame.opened frame.kind.opening
        frame.kind.closing) frame.token := ⟨rfl, _, rfl, _, rfl⟩
    -- The delimiter that was open is now reported, so the two lists together stay the same.
    refine ⟨blamed ++ [frame.token], List.rel_append habout (.cons hd .nil), ?_⟩
    rw [hm] at hsub
    simpa using hsub

/-- Frames that are given up blame their opening delimiters. -/
theorem iterate_abandon (h : m.Blames seen) (n : Nat) :
    (FrameMachine.abandon^[n] m).Blames seen := by
  induction n generalizing m with
  | zero => exact h
  | succ n ih =>
    rw [Function.iterate_succ_apply]
    exact ih h.abandon

/-- A closing delimiter is blamed itself, or the frames inside of the one that it closes blame
theirs. -/
theorem close (h : m.Blames seen) (k : Delimiter) (span : Span) :
    (m.close k span).Blames (seen ++ [⟨.closer k, span⟩]) := by
  unfold FrameMachine.close
  split
  · exact h.report ⟨rfl, _, rfl, k, rfl⟩ rfl
  split
  · exact ((h.iterate_abandon _).leave span).skip _
  · exact h.report ⟨rfl, _, rfl, k, rfl⟩ rfl

/-- A step of reading blames no delimiter twice. -/
theorem step (h : m.Blames seen) (t : Token) : (m.step t).Blames (seen ++ [t]) := by
  obtain ⟨kind, span⟩ := t
  cases kind with
  | atom a => exact (h.append (.atom a span)).skip _
  | opener d => exact h.enter d span
  | closer k => exact h.close k span
  | invalid | eof => exact h.skip _

/-- Reading blames no delimiter twice. -/
theorem run (h : m.Blames seen) (ts : List Token) :
    (ts.foldl FrameMachine.step m).Blames (seen ++ ts) := by
  induction ts generalizing m seen with
  | nil =>
    rw [List.append_nil]
    exact h
  | cons t ts ih =>
    have hrest := ih (h.step t)
    rw [List.append_assoc] at hrest
    exact hrest

end Blames

/-- The problems in the nesting of tokens are about different delimiters among them. -/
theorem blames_run (ts : List Token) :
    ∃ blamed, List.Forall₂ Diagnostic.About (ts.foldl step start).finish.diagnostics blamed ∧
      blamed.Subperm (ts.filter (·.kind.isDelimiter)) := by
  have hstart : start.Blames [] := ⟨[], .nil, List.Subperm.refl _⟩
  have hrun := hstart.run ts
  obtain ⟨blamed, habout, hsub⟩ := hrun.iterate_abandon (ts.foldl step start).frames.length
  exact ⟨blamed, habout, (List.sublist_append_left _ _).subperm.trans hsub⟩

end FrameMachine

/-! ## The scan -/

namespace Lexeme

/-- The problem of a lexeme is about its token, which is invalid. -/
theorem about_of_diagnostic? {l : Lexeme} {d : Diagnostic} (h : l.diagnostic? = some d) :
    l.token.kind = .invalid ∧ d.About l.token := by
  unfold diagnostic? at h
  unfold token
  cases hreading : l.reading with
  | ok kind =>
    rw [hreading] at h
    cases h
  | error fault =>
    rw [hreading] at h
    cases fault with
    | unexpected c =>
      obtain rfl := Option.some.inj h
      exact ⟨rfl, rfl, _, rfl, rfl⟩
    | unterminated =>
      obtain rfl := Option.some.inj h
      exact ⟨rfl, rfl, _, rfl, rfl⟩

/-- The problems that the scan finds are about the invalid tokens, one for each. -/
theorem about_invalid {start : Nat} {cs : List Char} (ls : List Lexeme)
    (hls : ∀ l ∈ ls, l ∈ scanFrom start cs) :
    List.Forall₂ Diagnostic.About (ls.filterMap diagnostic?)
      ((ls.map token).filter (·.kind = .invalid)) := by
  induction ls with
  | nil => exact .nil
  | cons l ls ih =>
    have hrest := ih fun k hk => hls k (List.mem_cons_of_mem _ hk)
    rw [List.map_cons]
    cases hd : l.diagnostic? with
    | none =>
      have hvalid := (diagnostic?_eq_none_iff (hls l List.mem_cons_self)).1 hd
      rw [List.filterMap_cons_none hd, List.filter_cons_of_neg (by simpa using hvalid)]
      exact hrest
    | some d =>
      obtain ⟨hinvalid, habout⟩ := about_of_diagnostic? hd
      rw [List.filterMap_cons_some hd, List.filter_cons_of_pos (by simpa using hinvalid)]
      exact .cons habout hrest

end Lexeme

namespace SourceFile

/-- The problems of a source are about different tokens of it. -/
theorem about_tokens (source : String) :
    ∃ blamed, List.Forall₂ Diagnostic.About (ofSource source).2 blamed ∧
      blamed.Subperm ((Lexeme.scan source).map Lexeme.token) := by
  obtain ⟨ts, hts⟩ : ∃ ts, ts = (Lexeme.scan source).map Lexeme.token := ⟨_, rfl⟩
  have hinvalid := Lexeme.about_invalid (Lexeme.scan source) fun _ hl => hl
  obtain ⟨blamed, habout, hsub⟩ := FrameMachine.blames_run ts
  rw [← hts] at hinvalid ⊢
  have hds : (ofSource source).2 = sortDiagnostics (Token.diagnosticsOfSource source
      ++ (ts.foldl FrameMachine.step .start).finish.diagnostics) := by
    unfold ofSource
    dsimp only
    rw [FrameMachine.diagnostics_ofTokens, FrameMachine.runFrom, FrameMachine.beforeEnd_ofSource,
      ← hts]
  -- No delimiter is invalid, so scan and nesting report different tokens.
  have hvalid : (ts.filter (·.kind.isDelimiter)).Sublist
      (ts.filter fun t => !decide (t.kind = .invalid)) := by
    refine List.monotone_filter_right ts fun t ht => ?_
    cases hkind : t.kind <;> simp_all [TokenKind.isDelimiter]
  have hdifferent : (ts.filter (·.kind = .invalid) ++ blamed).Subperm ts :=
    ((List.Subperm.refl _).append (hsub.trans hvalid.subperm)).trans
      (List.filter_append_perm _ ts).subperm
  rw [hds]
  obtain ⟨sorted, hsorted, hperm⟩ := List.perm_comp_forall₂ (List.mergeSort_perm _ _)
    (List.rel_append hinvalid habout)
  exact ⟨sorted, hsorted, hperm.subperm.trans hdifferent⟩

/-- Sorted problems are in the order of their positions. -/
theorem pairwise_sortDiagnostics (ds : List Diagnostic) :
    (sortDiagnostics ds).Pairwise fun a b => a.position ≤ b.position := by
  refine (List.pairwise_mergeSort ?_ ?_ ds).imp of_decide_eq_true
  · intro a b c hab hbc
    exact decide_eq_true (Nat.le_trans (of_decide_eq_true hab) (of_decide_eq_true hbc))
  · intro a b
    simpa using Nat.le_total a.position b.position

/-- Problems in order that are about different tokens are in strict order, where the tokens stand
one after the other, and then the tokens that they are about are in the same order. -/
theorem strict_of_about {ds : List Diagnostic} {blamed ts : List Token}
    (habout : List.Forall₂ Diagnostic.About ds blamed) (hsub : blamed.Subperm ts)
    (hts : ts.Pairwise fun t u => t.position < u.position)
    (hds : ds.Pairwise fun a b => a.position ≤ b.position) :
    (ds.Pairwise fun a b => a.position < b.position) ∧ blamed.Sublist ts := by
  have hpositions : ds.map Diagnostic.position = blamed.map Token.position := by
    rw [← List.forall₂_eq_eq_eq, List.forall₂_map_left_iff, List.forall₂_map_right_iff]
    refine habout.imp fun d t h => ?_
    rw [Diagnostic.position, h.span_eq, Token.position]
  have hdifferent : (blamed.map Token.position).Nodup := by
    obtain ⟨picked, hperm, hpicked⟩ := hsub
    have hnodup : (ts.map Token.position).Nodup :=
      List.pairwise_map.2 (hts.imp fun h => Nat.ne_of_lt h)
    exact (hperm.map _).nodup_iff.1 (hnodup.sublist (hpicked.map _))
  -- The order is strict because no two problems are about one token.
  have hstrict : (ds.map Diagnostic.position).Pairwise (· < ·) := by
    rw [← hpositions] at hdifferent
    exact ((List.pairwise_map.2 hds).and hdifferent).imp fun h => Nat.lt_of_le_of_ne h.1 h.2
  refine ⟨List.pairwise_map.1 hstrict, ?_⟩
  have : Std.Antisymm fun t u : Token => t.position < u.position :=
    ⟨fun t u h h' => absurd h (Nat.lt_asymm h')⟩
  rw [hpositions] at hstrict
  exact List.sublist_of_subperm_of_pairwise hsub (List.pairwise_map.1 hstrict) hts

/-- In strict order, the first problem is the one that starts before all others. -/
theorem head?_eq_some_iff_of_strict {ds : List Diagnostic}
    (h : ds.Pairwise fun a b => a.position < b.position) (d : Diagnostic) :
    ds.head? = some d ↔ d ∈ ds ∧ ∀ other ∈ ds, other ≠ d → d.position < other.position := by
  cases ds with
  | nil => simp
  | cons first others =>
    have hfirst : ∀ other ∈ others, first.position < other.position :=
      fun other => List.rel_of_pairwise_cons h
    constructor
    · intro hhead
      obtain rfl := Option.some.inj hhead
      refine ⟨List.mem_cons_self, ?_⟩
      intro other hother hne
      exact hfirst other (List.mem_of_ne_of_mem hne hother)
    · rintro ⟨hmem, hleast⟩
      by_contra hhead
      have hne : first ≠ d := fun heq => hhead (congrArg some heq)
      have hlater := hfirst d (List.mem_of_ne_of_mem hne.symm hmem)
      exact Nat.lt_asymm hlater (hleast first List.mem_cons_self hne)

end SourceFile

namespace Program

open SourceFile

/-- The error of reading a source is its first problem. -/
theorem read_eq_error_iff (source : String) (e : EvalError) :
    read source = .error e ↔ ∃ d, (ofSource source).2.head? = some d ∧ e = .ofDiagnostic d := by
  unfold read parse
  generalize ofSource source = answer
  obtain ⟨file, diagnostics⟩ := answer
  cases diagnostics with
  | nil => simp [Except.mapError]
  | cons first others => simp [Except.mapError, eq_comm]

end Program

namespace SourceFile

/-- The problems of a source shorter than `2 ^ 32` bytes start at different places and are reported
in the order of these places. Each is about a token of its own: an invalid one, an opening delimiter
that is not closed, or a closing delimiter that closes nothing. Reading fails exactly with the one
problem that starts before all others. -/
theorem problems_about_distinct_tokens {source : String}
    (hsize : Source.byteLength source.toList < 2 ^ 32) :
    ((ofSource source).2.Pairwise fun a b => a.position < b.position) ∧
    (∃ blamed, List.Forall₂ Diagnostic.About (ofSource source).2 blamed ∧
      blamed.Sublist (Token.ofSource source) ∧ blamed.Nodup) ∧
    ∀ e, Program.read source = .error e ↔ ∃ d ∈ (ofSource source).2, e = .ofDiagnostic d ∧
      ∀ other ∈ (ofSource source).2, other ≠ d → d.position < other.position := by
  obtain ⟨blamed, habout, hsub⟩ := about_tokens source
  have horder := (Lexeme.inOrder_scan hsize).pairwise_position
  have hsorted : (ofSource source).2.Pairwise fun a b => a.position ≤ b.position :=
    pairwise_sortDiagnostics _
  obtain ⟨hstrict, hblamed⟩ := strict_of_about habout hsub horder hsorted
  refine ⟨hstrict, ⟨blamed, habout, hblamed.trans (List.sublist_append_left _ _), ?_⟩, ?_⟩
  · refine List.Pairwise.imp (fun {t u} h => ?_) (horder.sublist hblamed)
    rintro rfl
    exact Nat.lt_irrefl _ h
  · intro e
    rw [Program.read_eq_error_iff]
    refine exists_congr fun d => ?_
    rw [head?_eq_some_iff_of_strict hstrict, and_right_comm, and_assoc]

/-- Problems of four kinds, of which the nesting finds the second one last. -/
theorem problems_about_distinct_tokens_mixed :
    Source.byteLength "(\x7b) ( \x7d $ \"a".toList < 2 ^ 32 ∧
    (ofSource "(\x7b) ( \x7d $ \"a").2.map Diagnostic.position = [1, 4, 6, 8, 10] ∧
    Program.read "(\x7b) ( \x7d $ \"a"
      = .error (.unreadable "unclosed delimiter `\x7b`" 1 .unclosedDelimiter) ∧
    (∃ blamed, List.Forall₂ Diagnostic.About (ofSource "(\x7b) ( \x7d $ \"a").2 blamed ∧
      blamed.Sublist (Token.ofSource "(\x7b) ( \x7d $ \"a") ∧ blamed.Nodup) ∧
    ∃ d ∈ (ofSource "(\x7b) ( \x7d $ \"a").2,
      .unreadable "unclosed delimiter `\x7b`" 1 .unclosedDelimiter = EvalError.ofDiagnostic d ∧
      ∀ other ∈ (ofSource "(\x7b) ( \x7d $ \"a").2, other ≠ d → d.position < other.position := by
  have hsize : Source.byteLength "(\x7b) ( \x7d $ \"a".toList < 2 ^ 32 := by decide
  have hread : Program.read "(\x7b) ( \x7d $ \"a"
      = .error (.unreadable "unclosed delimiter `\x7b`" 1 .unclosedDelimiter) := by cbv
  obtain ⟨-, hblamed, herror⟩ := problems_about_distinct_tokens hsize
  exact ⟨hsize, by cbv, hread, hblamed, (herror _).1 hread⟩

end SourceFile

end QLisp
