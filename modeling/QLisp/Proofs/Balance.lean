import Mathlib
import QLisp.Proofs.FrameMachine
import QLisp.Proofs.Scan

/-!
# Sources without problems

A source is read without problems exactly when every character of it belongs to a token or a gap and
its delimiters are balanced. The forms of such a source are its derivation: written back as tokens,
they are the tokens that were read.

Balanced words are given by their grammar. A stack of delimiters decides them
(`balanced_iff_after`), and the frames of the machine that reads forms are such a stack as long as
nothing is reported.
-/

set_option autoImplicit false

namespace QLisp

/-- Whether a token is a delimiter. -/
def TokenKind.isDelimiter : TokenKind → Bool
  | .opener _ => true
  | .closer _ => true
  | _ => false

/-- The balanced words over the two kinds of delimiters. -/
inductive Balanced : List TokenKind → Prop
  | nil : Balanced []
  | enclose (d : Delimiter) {w : List TokenKind} (hw : Balanced w) :
    Balanced (.opener d :: w ++ [.closer d])
  | append {u v : List TokenKind} (hu : Balanced u) (hv : Balanced v) : Balanced (u ++ v)

namespace Form

mutual

/-- The tokens with which a form is written. -/
def yield : Form → List TokenKind
  | atom a _ => [.atom a]
  | group d items _ => .opener d :: yieldAll items ++ [.closer d]

/-- The tokens with which several forms are written. -/
def yieldAll : List Form → List TokenKind
  | [] => []
  | f :: fs => f.yield ++ yieldAll fs

end

/-- The token kinds of two lists of forms follow each other. -/
@[simp]
theorem yieldAll_append (fs gs : List Form) : yieldAll (fs ++ gs) = yieldAll fs ++ yieldAll gs := by
  induction fs with
  | nil => rfl
  | cons f fs ih => rw [List.cons_append, yieldAll, yieldAll, ih, List.append_assoc]

end Form

namespace Nesting

/-- The delimiters that are open after a token, the innermost first, where `stack` is open before
it; nothing if the token closes what is not the innermost one. -/
def next : List Delimiter → TokenKind → Option (List Delimiter)
  | stack, .opener d => some (d :: stack)
  | [], .closer _ => none
  | d :: stack, .closer k => if k = d then some stack else none
  | stack, _ => some stack

/-- The delimiters that are open after several tokens. -/
def after (stack : List Delimiter) (w : List TokenKind) : Option (List Delimiter) :=
  w.foldlM next stack

/-- No token kinds leave the stack as it is. -/
@[simp]
theorem after_nil (stack : List Delimiter) : after stack [] = some stack := rfl

/-- The first token kind changes the stack before the others do. -/
theorem after_cons (stack : List Delimiter) (k : TokenKind) (w : List TokenKind) :
    after stack (k :: w) = (next stack k).bind fun s => after s w := rfl

/-- Token kinds change the stack one part after the other. -/
theorem after_append (stack : List Delimiter) (u v : List TokenKind) :
    after stack (u ++ v) = (after stack u).bind fun s => after s v :=
  List.foldlM_append

/-- A closing delimiter closes the innermost open one, which has to be of its kind. -/
theorem next_closer_eq_some_iff {stack outer : List Delimiter} {k : Delimiter} :
    next stack (.closer k) = some outer ↔ stack = k :: outer := by
  cases stack with
  | nil => simp [next]
  | cons d stack =>
    by_cases hk : k = d
    · simp [next, hk]
    · simp [next, hk, Ne.symm hk]

/-- Tokens that are no delimiters leave the nesting as it is. -/
theorem after_filter (stack : List Delimiter) (w : List TokenKind) :
    after stack (w.filter TokenKind.isDelimiter) = after stack w := by
  induction w generalizing stack with
  | nil => rfl
  | cons k w ih =>
    cases k with
    | opener d =>
      rw [List.filter_cons_of_pos rfl, after_cons, after_cons]
      exact ih (d :: stack)
    | closer d =>
      rw [List.filter_cons_of_pos rfl, after_cons, after_cons]
      simp only [ih]
    | atom a | invalid | eof =>
      rw [List.filter_cons_of_neg (by simp [TokenKind.isDelimiter]), after_cons]
      simpa [next] using ih stack

/-- A balanced word closes what it opens and nothing else. -/
theorem after_of_balanced {w : List TokenKind} (h : Balanced w) (stack : List Delimiter) :
    after stack w = some stack := by
  induction h generalizing stack with
  | nil => rfl
  | @enclose d w hw ih =>
    rw [List.cons_append, after_cons, next, Option.bind_some, after_append, ih (d :: stack),
      Option.bind_some, after_cons]
    simp [next]
  | append hu hv ihu ihv => rw [after_append, ihu stack, Option.bind_some, ihv stack]

/-- A word that closes all that is open starts with a balanced word, which reaches to the closing
delimiter of the innermost one, or to the end if nothing is open. -/
theorem balanced_of_after {stack : List Delimiter} {w : List TokenKind}
    (hw : ∀ k ∈ w, k.isDelimiter = true) (h : after stack w = some []) :
    (stack = [] → Balanced w) ∧
    ∀ d outer, stack = d :: outer →
      ∃ u rest, w = u ++ .closer d :: rest ∧ Balanced u ∧ after outer rest = some [] := by
  -- After an opening delimiter there are two shorter words: what is inside, and what follows.
  induction hn : w.length using Nat.strongRecOn generalizing stack w with
  | _ n ih =>
  subst hn
  cases w with
  | nil =>
    have hstack : stack = [] := Option.some.inj h
    exact ⟨fun _ => .nil, fun d outer hcons => by simp [hstack] at hcons⟩
  | cons k w =>
    have htail : ∀ j ∈ w, j.isDelimiter = true := fun j hj => hw j (List.mem_cons_of_mem _ hj)
    rw [after_cons] at h
    cases k with
    | opener e =>
      rw [next, Option.bind_some] at h
      obtain ⟨u, rest, hsplit, hu, hrest⟩ := (ih w.length (by simp) htail h rfl).2 e stack rfl
      have hdelims : ∀ j ∈ rest, j.isDelimiter = true := by
        intro j hj
        refine htail j ?_
        simp [hsplit, hj]
      have hshort : rest.length < (TokenKind.opener e :: w).length := by
        simp [hsplit]
        omega
      obtain ⟨hnil, hcons⟩ := ih rest.length hshort hdelims hrest rfl
      have hfront : Balanced (.opener e :: u ++ [.closer e]) := .enclose e hu
      constructor
      · intro hstack
        have hwhole := Balanced.append hfront (hnil hstack)
        simpa [hsplit] using hwhole
      · intro d outer hstack
        obtain ⟨u', rest', hsplit', hu', hrest'⟩ := hcons d outer hstack
        refine ⟨_, rest', ?_, .append hfront hu', hrest'⟩
        simp [hsplit, hsplit']
    | closer e =>
      cases stack with
      | nil => simp [next] at h
      | cons d outer =>
        by_cases he : e = d
        · subst he
          rw [next, if_pos rfl, Option.bind_some] at h
          refine ⟨fun hstack => by simp at hstack, ?_⟩
          intro d' outer' hstack
          obtain ⟨rfl, rfl⟩ := List.cons.inj hstack
          exact ⟨[], w, rfl, .nil, h⟩
        · simp [next, he] at h
    | atom a | invalid | eof => simp [TokenKind.isDelimiter] at hw

/-- The delimiters of a sequence of tokens are balanced exactly when none is open after it and each
closed the innermost one. -/
theorem balanced_iff_after (w : List TokenKind) :
    Balanced (w.filter TokenKind.isDelimiter) ↔ after [] w = some [] := by
  rw [← after_filter]
  constructor
  · intro h
    exact after_of_balanced h []
  · intro h
    refine (balanced_of_after ?_ h).1 rfl
    intro k hk
    exact (List.mem_filter.1 hk).2

end Nesting

namespace FrameMachine

open Nesting

/-! ## Problems are kept -/

/-- A form in the innermost frame is no problem. -/
@[simp]
theorem diagnostics_append (m : FrameMachine) (f : Form) :
    (m.append f).diagnostics = m.diagnostics := by
  unfold append
  cases m.frames <;> rfl

/-- Closing a frame is no problem. -/
@[simp]
theorem diagnostics_leave (m : FrameMachine) (stop : Span) :
    (m.leave stop).diagnostics = m.diagnostics := by
  unfold leave
  cases m.frames with
  | nil => rfl
  | cons frame outer => simp

/-- An open frame that is given up is a problem. -/
theorem diagnostics_abandon_ne_nil {m : FrameMachine} (h : m.frames ≠ []) :
    m.abandon.diagnostics ≠ [] := by
  unfold abandon
  cases hm : m.frames with
  | nil => exact absurd hm h
  | cons frame outer => simp [report]

/-- Giving up frames hides no problem. -/
theorem diagnostics_iterate_abandon_ne_nil {m : FrameMachine} (n : Nat)
    (h : m.diagnostics ≠ []) : (abandon^[n] m).diagnostics ≠ [] := by
  induction n generalizing m with
  | zero => exact h
  | succ n ih =>
    rw [Function.iterate_succ_apply]
    refine ih ?_
    cases hm : m.frames with
    | nil => simpa [abandon, hm] using h
    | cons frame outer => exact diagnostics_abandon_ne_nil (by simp [hm])

/-- Reading ends without problems if there are none so far and no frame is open. -/
theorem diagnostics_finish_eq_nil_iff (m : FrameMachine) :
    m.finish.diagnostics = [] ↔ m.diagnostics = [] ∧ m.kinds = [] := by
  unfold finish
  cases hm : m.frames with
  | nil => simp [kinds, hm]
  | cons frame outer =>
    have hbad := diagnostics_iterate_abandon_ne_nil outer.length
      (diagnostics_abandon_ne_nil (m := m) (by simp [hm]))
    rw [List.length_cons, Function.iterate_succ_apply]
    constructor
    · intro h
      exact absurd h hbad
    · rintro ⟨-, hkinds⟩
      simp [kinds, hm] at hkinds

/-! ## Steps that report nothing -/

/-- Closing a frame takes its kind from the stack. -/
@[simp]
theorem kinds_leave (m : FrameMachine) (stop : Span) : (m.leave stop).kinds = m.kinds.tail := by
  unfold leave
  cases hm : m.frames with
  | nil => simp [kinds, hm]
  | cons frame outer =>
    rw [kinds_append]
    simp [kinds, hm]

/-- A closing delimiter that is not of the kind of the innermost group is a problem. -/
theorem diagnostics_close_ne_nil {m : FrameMachine} {k : Delimiter} (span : Span)
    (h : m.kinds.head? ≠ some k) : (m.close k span).diagnostics ≠ [] := by
  cases hm : m.frames with
  | nil => simp [close, hm, report]
  | cons frame outer =>
    have hkinds : m.kinds = frame.kind :: outer.map Frame.kind := by
      rw [kinds, hm, List.map_cons]
    have hne : frame.kind ≠ k := by
      intro heq
      exact h (by simp [hkinds, heq])
    by_cases hk : k ∈ m.kinds
    · rw [close_of_mem span hk, hkinds, diagnostics_leave]
      rw [List.takeWhile_cons_of_pos (by simpa using hne), List.length_cons,
        Function.iterate_succ_apply]
      exact diagnostics_iterate_abandon_ne_nil _ (diagnostics_abandon_ne_nil (by simp [hm]))
    · simp [close, hm, hk, report]

/-- A closing delimiter that goes on with the nesting ends the innermost group, which has its
kind. -/
theorem close_of_next {m : FrameMachine} {k : Delimiter} {stack : List Delimiter} (span : Span)
    (h : next m.kinds (.closer k) = some stack) :
    ∃ frame outer, m.frames = frame :: outer ∧ frame.kind = k ∧ m.close k span = m.leave span := by
  have hkinds := next_closer_eq_some_iff.1 h
  cases hm : m.frames with
  | nil => simp [kinds, hm] at hkinds
  | cons frame outer =>
    rw [kinds, hm, List.map_cons] at hkinds
    have hkind : frame.kind = k := (List.cons.inj hkinds).1
    refine ⟨frame, outer, rfl, hkind, ?_⟩
    rw [← hkind, close_innermost span hm]

/-- A step reports nothing exactly when its token goes on with the nesting of the open groups. -/
theorem diagnostics_step_eq_nil_iff (m : FrameMachine) (t : Token) :
    (m.step t).diagnostics = [] ↔ m.diagnostics = [] ∧ (next m.kinds t.kind).isSome = true := by
  obtain ⟨kind, span⟩ := t
  cases kind with
  | closer k =>
    change (m.close k span).diagnostics = [] ↔ _
    cases hnext : next m.kinds (.closer k) with
    | none =>
      have hhead : m.kinds.head? ≠ some k := by
        intro hhead
        obtain ⟨stack, hstack⟩ := List.head?_eq_some_iff.1 hhead
        rw [next_closer_eq_some_iff.2 hstack] at hnext
        cases hnext
      simp [diagnostics_close_ne_nil span hhead]
    | some stack =>
      obtain ⟨frame, outer, -, -, hclose⟩ := close_of_next span hnext
      simp [hclose]
  | opener d => simp [step, take, next, enter]
  | atom a | invalid | eof => simp [step, take, next]

/-- A step of reading changes the open kinds as the token says, if it may stand there. -/
theorem kinds_step {m : FrameMachine} {t : Token} {stack : List Delimiter}
    (h : next m.kinds t.kind = some stack) : (m.step t).kinds = stack := by
  obtain ⟨kind, span⟩ := t
  cases kind with
  | closer k =>
    obtain ⟨frame, outer, -, -, hclose⟩ := close_of_next span h
    change (m.close k span).kinds = stack
    rw [hclose, kinds_leave, next_closer_eq_some_iff.1 h, List.tail_cons]
  | opener d => exact Option.some.inj h
  | atom a =>
    change (m.append (.atom a span)).kinds = stack
    rw [kinds_append]
    simpa [next] using h
  | invalid | eof =>
    change m.kinds = stack
    simpa [next] using h

/-- A run reports nothing exactly when its tokens go on with the nesting of the open groups and
leave nothing open. -/
theorem diagnostics_run_eq_nil_iff (m : FrameMachine) (ts : List Token) :
    (ts.foldl step m).finish.diagnostics = [] ↔
      m.diagnostics = [] ∧ after m.kinds (ts.map Token.kind) = some [] := by
  induction ts generalizing m with
  | nil =>
    rw [List.foldl_nil, diagnostics_finish_eq_nil_iff]
    simp
  | cons t ts ih =>
    rw [List.foldl_cons, ih (m.step t), diagnostics_step_eq_nil_iff, List.map_cons, after_cons]
    cases hnext : next m.kinds t.kind with
    | none => simp
    | some stack => simp [kinds_step hnext]

/-! ## What is written -/

/-- The tokens with which the forms read so far are written, up to the innermost open group. -/
def written (m : FrameMachine) : List TokenKind :=
  Form.yieldAll m.forms
    ++ m.frames.reverse.flatMap fun frame => .opener frame.kind :: Form.yieldAll frame.items

/-- A form in the innermost frame is written behind all that was read. -/
theorem written_append (m : FrameMachine) (f : Form) :
    (m.append f).written = m.written ++ f.yield := by
  unfold append written
  cases hm : m.frames with
  | nil => simp [Form.yieldAll]
  | cons frame outer => simp [Form.yieldAll]

/-- A closing delimiter is written behind all that was read. -/
theorem written_leave {m : FrameMachine} {frame : Frame} {outer : List Frame} (stop : Span)
    (hm : m.frames = frame :: outer) :
    (m.leave stop).written = m.written ++ [.closer frame.kind] := by
  unfold leave
  simp only [hm]
  rw [written_append]
  simp [written, hm, Frame.group, Form.yield]

/-- A step that goes on with the nesting writes its token. -/
theorem written_step {m : FrameMachine} {t : Token} {stack : List Delimiter}
    (h : next m.kinds t.kind = some stack) (hinvalid : t.kind ≠ .invalid) (heof : t.kind ≠ .eof) :
    (m.step t).written = m.written ++ [t.kind] := by
  obtain ⟨kind, span⟩ := t
  cases kind with
  | closer k =>
    obtain ⟨frame, outer, hm, hkind, hclose⟩ := close_of_next span h
    change (m.close k span).written = m.written ++ [.closer k]
    rw [hclose, written_leave span hm, hkind]
  | opener d =>
    change (m.enter d span).written = m.written ++ [.opener d]
    simp [written, enter, Form.yieldAll]
  | atom a =>
    change (m.append (.atom a span)).written = m.written ++ [.atom a]
    rw [written_append, Form.yield]
  | invalid => exact absurd rfl hinvalid
  | eof => exact absurd rfl heof

/-- The forms of a run without problems are written with the tokens of the run. -/
theorem yieldAll_run (m : FrameMachine) (ts : List Token)
    (hkinds : ∀ t ∈ ts, t.kind ≠ .invalid ∧ t.kind ≠ .eof)
    (h : after m.kinds (ts.map Token.kind) = some []) :
    Form.yieldAll (ts.foldl step m).finish.forms = m.written ++ ts.map Token.kind := by
  induction ts generalizing m with
  | nil =>
    have hframes : m.frames = [] := by
      simpa [kinds] using h
    simp [finish, hframes, written]
  | cons t ts ih =>
    obtain ⟨hinvalid, heof⟩ := hkinds t List.mem_cons_self
    rw [List.map_cons, after_cons, Option.bind_eq_some_iff] at h
    obtain ⟨stack, hnext, hrest⟩ := h
    rw [← kinds_step hnext] at hrest
    rw [List.foldl_cons, ih (m.step t) (fun u hu => hkinds u (List.mem_cons_of_mem _ hu)) hrest,
      written_step hnext hinvalid heof, List.map_cons, List.append_assoc, List.singleton_append]

/-- The tokens before the end of a source are those of its lexemes. -/
theorem beforeEnd_ofSource (source : String) :
    beforeEnd (Token.ofSource source) = (Lexeme.scan source).map Lexeme.token := by
  unfold beforeEnd Token.ofSource
  rw [List.takeWhile_append_of_pos]
  · simp [Token.endOf]
  · intro t ht
    obtain ⟨l, hl, rfl⟩ := List.mem_map.1 ht
    simpa using Lexeme.kind_token_ne_eof hl

/-- The end of a source is no delimiter. -/
theorem filter_isDelimiter_ofSource (source : String) :
    ((Token.ofSource source).map Token.kind).filter TokenKind.isDelimiter
      = ((beforeEnd (Token.ofSource source)).map Token.kind).filter TokenKind.isDelimiter := by
  rw [beforeEnd_ofSource]
  simp [Token.ofSource, Token.endOf, TokenKind.isDelimiter]

end FrameMachine

namespace SourceFile

open Nesting FrameMachine

/-- Sorting neither hides nor makes problems. -/
theorem sortDiagnostics_eq_nil_iff (ds : List Diagnostic) : sortDiagnostics ds = [] ↔ ds = [] := by
  unfold sortDiagnostics
  rw [← List.length_eq_zero_iff, List.length_mergeSort, List.length_eq_zero_iff]

/-- A source is read without problems exactly when it has no invalid token and its delimiters
nest. -/
theorem diagnostics_ofSource_eq_nil_iff (source : String) :
    (ofSource source).2 = [] ↔
      (∀ t ∈ Token.ofSource source, t.kind ≠ .invalid) ∧
      after [] ((beforeEnd (Token.ofSource source)).map Token.kind) = some [] := by
  have hnesting := diagnostics_run_eq_nil_iff start (beforeEnd (Token.ofSource source))
  unfold ofSource
  dsimp only
  rw [sortDiagnostics_eq_nil_iff, List.append_eq_nil_iff, Token.diagnosticsOfSource_eq_nil_iff,
    diagnostics_ofTokens, runFrom, hnesting]
  exact and_congr_right fun _ => and_iff_right rfl

/-- A source without problems has forms with all its tokens before the end. -/
theorem yieldAll_ofSource {source : String} (h : (ofSource source).2 = []) :
    Form.yieldAll (ofSource source).1.forms
      = (beforeEnd (Token.ofSource source)).map Token.kind := by
  obtain ⟨hinvalid, hafter⟩ := (diagnostics_ofSource_eq_nil_iff source).1 h
  have hkinds : ∀ t ∈ beforeEnd (Token.ofSource source), t.kind ≠ .invalid ∧ t.kind ≠ .eof := by
    intro t ht
    refine ⟨hinvalid t ((List.takeWhile_sublist _).subset ht), ?_⟩
    simpa using List.all_eq_true.1 List.all_takeWhile t ht
  have hrun := yieldAll_run start (beforeEnd (Token.ofSource source)) hkinds hafter
  unfold ofSource
  dsimp only
  rw [forms_ofTokens, runFrom, hrun]
  rfl

/-- A source is read without problems exactly when it has no invalid token and its delimiters are
balanced, and then its forms, written back as tokens, are its tokens: they are its derivation. -/
theorem reads_cleanly_iff_balanced (source : String) :
    ((ofSource source).2 = [] ↔
      (∀ t ∈ Token.ofSource source, t.kind ≠ .invalid) ∧
      Balanced (((Token.ofSource source).map Token.kind).filter TokenKind.isDelimiter)) ∧
    ((ofSource source).2 = [] →
      Form.yieldAll (ofSource source).1.forms
        = (beforeEnd (Token.ofSource source)).map Token.kind) := by
  constructor
  · rw [diagnostics_ofSource_eq_nil_iff, filter_isDelimiter_ofSource, balanced_iff_after]
  · intro h
    exact yieldAll_ofSource h

/-- A list within a list is balanced. -/
theorem reads_cleanly_nested :
    (ofSource "(f \x7bx\x7d 1)").2 = [] ∧
    Form.yieldAll (ofSource "(f \x7bx\x7d 1)").1.forms
      = [.opener .paren, .atom (.symbol "f"), .opener .brace, .atom (.symbol "x"), .closer .brace,
          .atom (.number ⟨1, 0⟩), .closer .paren] := by
  have hclean : (ofSource "(f \x7bx\x7d 1)").2 = [] := by cbv
  refine ⟨hclean, ((reads_cleanly_iff_balanced _).2 hclean).trans ?_⟩
  cbv

end SourceFile

end QLisp
