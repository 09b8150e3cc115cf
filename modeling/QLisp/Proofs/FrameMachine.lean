import Mathlib.Logic.Function.Iterate
import QLisp.Form.Reader

/-!
# Reading with a stack of open groups

`SourceFile.ofTokens` reads by descent: a group that cannot take a closing delimiter gives up and
leaves the token to the group around it, which then looks at it again. Here the same reading is
described as a machine that looks at every token before the end mark exactly once and keeps the
groups that are open as a stack of frames.

The descent is followed by `Cursor.machine`, which puts the frames around a cursor. What the descent
into one group amounts to for the machine is `runFrom_body`, and `runFrom_readForms` is the same for
a whole sequence of tokens.
-/

set_option autoImplicit false

namespace QLisp

/-- A group that is open: its kind, the span of its opening delimiter, and its items so far. -/
structure Frame where
  kind : Delimiter
  opened : Span
  items : List Form

namespace Frame

/-- The group that a frame becomes when it ends at `stop`. -/
def group (frame : Frame) (stop : Span) : Form :=
  .group frame.kind frame.items (frame.opened.cover stop)

/-- What a stack of delimiters keeps of a frame. -/
def entry (frame : Frame) : Delimiter × Span :=
  (frame.kind, frame.opened)

end Frame

/-- The state of the machine between two tokens. -/
structure FrameMachine where
  /-- The groups that are open, the innermost first. -/
  frames : List Frame
  /-- The forms outside of all groups. -/
  forms : List Form
  /-- The span of the token before. -/
  previous : Span
  /-- The problems reported so far. -/
  diagnostics : List Diagnostic

namespace FrameMachine

/-- The state before the first token. -/
def start : FrameMachine :=
  ⟨[], [], .origin, []⟩

/-- The kinds of the open groups, the innermost first. -/
def kinds (m : FrameMachine) : List Delimiter :=
  m.frames.map Frame.kind

/-- Appends a form to the innermost open group, or to the forms outside if none is open. -/
def append (m : FrameMachine) (f : Form) : FrameMachine :=
  match m.frames with
  | [] => { m with forms := m.forms ++ [f] }
  | frame :: outer => { m with frames := { frame with items := frame.items ++ [f] } :: outer }

/-- Reports a problem. -/
def report (m : FrameMachine) (d : Diagnostic) : FrameMachine :=
  { m with diagnostics := m.diagnostics ++ [d] }

/-- Opens a group whose opening delimiter stands at `span`. -/
def enter (m : FrameMachine) (d : Delimiter) (span : Span) : FrameMachine :=
  { m with frames := ⟨d, span, []⟩ :: m.frames }

/-- Ends the innermost group at `stop`. -/
def leave (m : FrameMachine) (stop : Span) : FrameMachine :=
  match m.frames with
  | [] => m
  | frame :: outer => { m with frames := outer }.append (frame.group stop)

/-- Reports the innermost group as unclosed and ends it at the token before. -/
def abandon (m : FrameMachine) : FrameMachine :=
  match m.frames with
  | [] => m
  | frame :: _ =>
    (m.report (.unclosedDelimiter frame.opened frame.kind.opening frame.kind.closing)).leave
      m.previous

/-- Takes a closing delimiter of kind `k` at `span`. It closes the nearest open group of its kind,
and the groups inside of that one are unclosed; without such a group it is reported and skipped. -/
def close (m : FrameMachine) (k : Delimiter) (span : Span) : FrameMachine :=
  match m.frames with
  | [] => m.report (.unexpectedCloser span k.closing)
  | frame :: _ =>
    if k ∈ m.kinds then (abandon^[(m.kinds.takeWhile (· ≠ k)).length] m).leave span
    else m.report (.mismatchedDelimiter span frame.opened frame.kind.closing k.closing)

/-- What the machine does with a token. -/
def take (m : FrameMachine) (t : Token) : FrameMachine :=
  match t.kind with
  | .atom a => m.append (.atom a t.span)
  | .opener d => m.enter d t.span
  | .closer k => m.close k t.span
  | .invalid => m
  | .eof => m

/-- One step of the machine. -/
def step (m : FrameMachine) (t : Token) : FrameMachine :=
  { m.take t with previous := t.span }

/-- At the end every open group is unclosed. -/
def finish (m : FrameMachine) : FrameMachine :=
  abandon^[m.frames.length] m

/-- The tokens before the first end mark. -/
def beforeEnd (tokens : List Token) : List Token :=
  tokens.takeWhile (·.kind ≠ .eof)

/-- Runs the machine over the tokens before the first end mark. -/
def runFrom (m : FrameMachine) (tokens : List Token) : FrameMachine :=
  ((beforeEnd tokens).foldl step m).finish

/-- The span of the first end mark. Where there is none, the span of the last token stands for it,
and `previous` where there is no token at all. -/
def endSpan (previous : Span) : List Token → Span
  | [] => previous
  | t :: rest => if t.kind = .eof then t.span else endSpan t.span rest

/-- The span from the first token to the first end mark. -/
def extent (tokens : List Token) : Span :=
  ((tokens.head?.map Token.span).getD .origin).cover (endSpan .origin tokens)

/-- What the machine reads: the forms with the span of the source, and the problems. -/
def read (tokens : List Token) : SourceFile × List Diagnostic :=
  let m := runFrom start tokens
  (⟨m.forms, extent tokens⟩, m.diagnostics)

end FrameMachine

namespace Reader

/-- The inside of a group, without the bound on the tokens that are left. -/
def body (d : Delimiter) (opened : Span) (c : Cursor) : Body :=
  (readBody d opened c).val

/-- Reading a body leaves no more tokens than there were. -/
theorem length_body_le (d : Delimiter) (opened : Span) (c : Cursor) :
    (body d opened c).cursor.tokens.length ≤ c.tokens.length :=
  (readBody d opened c).property

/-- A body without tokens is not closed. -/
theorem body_of_nil (d : Delimiter) (opened : Span) {c : Cursor} (h : c.tokens = []) :
    body d opened c = ⟨[], c.previous, c.report (unclosed d opened)⟩ := by
  obtain ⟨tokens, previous, stack, diagnostics⟩ := c
  subst h
  rw [body, readBody]

/-- What reading the inside of a group does with the next token. -/
theorem body_of_cons (d : Delimiter) (opened : Span) {c : Cursor} {t : Token}
    {rest : List Token} (h : c.tokens = t :: rest) :
    body d opened c =
      match t.kind with
      | .eof => ⟨[], c.previous, c.report (unclosed d opened)⟩
      | .closer k =>
        if k = d then ⟨[], t.span, c.advance t rest⟩
        else if c.opened.insideOuter k then ⟨[], c.previous, c.report (unclosed d opened)⟩
        else body d opened ((c.report (mismatched d opened k t.span)).advance t rest)
      | .invalid => body d opened (c.advance t rest)
      | .atom a => (body d opened (c.advance t rest)).cons (.atom a t.span)
      | .opener e =>
        let inner := body e t.span ((c.advance t rest).enter e t.span)
        (body d opened inner.cursor.leave).cons
          (.group e inner.items (t.span.cover inner.stop)) := by
  obtain ⟨tokens, previous, stack, diagnostics⟩ := c
  obtain ⟨kind, span⟩ := t
  subst h
  rw [body, readBody]
  cases kind with
  | closer k =>
    dsimp only
    split
    · rfl
    · split <;> rfl
  | _ => rfl

/-- Without tokens there are no forms. -/
theorem readForms_of_nil {c : Cursor} (h : c.tokens = []) : readForms c = ([], c) := by
  obtain ⟨tokens, previous, stack, diagnostics⟩ := c
  subst h
  rw [readForms]

/-- What reading outside of all groups does with the next token. -/
theorem readForms_of_cons {c : Cursor} {t : Token} {rest : List Token} (h : c.tokens = t :: rest) :
    readForms c =
      match t.kind with
      | .eof => ([], c)
      | .closer k => readForms ((c.report (unexpected k t.span)).advance t rest)
      | .invalid => readForms (c.advance t rest)
      | .atom a =>
        let after := readForms (c.advance t rest)
        (.atom a t.span :: after.1, after.2)
      | .opener d =>
        let inner := body d t.span ((c.advance t rest).enter d t.span)
        let after := readForms inner.cursor.leave
        (.group d inner.items (t.span.cover inner.stop) :: after.1, after.2) := by
  obtain ⟨tokens, previous, stack, diagnostics⟩ := c
  obtain ⟨kind, span⟩ := t
  subst h
  rw [readForms]
  cases kind <;> rfl

end Reader

namespace FrameMachine

/-! ## What the machine does at a token -/

/-- Without tokens the machine finishes. -/
@[simp]
theorem runFrom_nil (m : FrameMachine) : m.runFrom [] = m.finish := rfl

/-- At the end of the source the machine finishes, whatever comes behind it. -/
theorem runFrom_of_eof (m : FrameMachine) {t : Token} (rest : List Token) (h : t.kind = .eof) :
    m.runFrom (t :: rest) = m.finish := by
  simp [runFrom, beforeEnd, h]

/-- Before the end of the source the machine takes one step for each token. -/
theorem runFrom_of_ne_eof (m : FrameMachine) {t : Token} (rest : List Token)
    (h : t.kind ≠ .eof) : m.runFrom (t :: rest) = (m.step t).runFrom rest := by
  simp [runFrom, beforeEnd, h]

/-- A form in the innermost frame leaves the open kinds. -/
@[simp]
theorem kinds_append (m : FrameMachine) (f : Form) : (m.append f).kinds = m.kinds := by
  unfold append kinds
  cases m.frames <;> rfl

/-- There are as many open kinds as frames. -/
theorem length_frames (m : FrameMachine) : m.frames.length = m.kinds.length := by
  rw [kinds, List.length_map]

/-- Giving up the innermost frame takes its kind from the open ones. -/
theorem kinds_abandon (m : FrameMachine) : m.abandon.kinds = m.kinds.tail := by
  unfold abandon
  cases hm : m.frames with
  | nil => simp [kinds, hm]
  | cons frame outer =>
    simp only [report, leave, hm, kinds_append]
    simp [kinds, hm]

/-- The machine finishes in the same way if its innermost frame is given up before. -/
theorem finish_abandon {m : FrameMachine} {frame : Frame} {outer : List Frame}
    (hm : m.frames = frame :: outer) : m.abandon.finish = m.finish := by
  have hlength : m.abandon.frames.length = outer.length := by
    rw [length_frames, kinds_abandon, kinds, hm]
    simp
  unfold finish
  rw [hlength, hm, List.length_cons, Function.iterate_succ_apply]

/-- A closing delimiter of an open kind gives up the frames inside and closes the one of its kind.
-/
theorem close_of_mem {m : FrameMachine} {k : Delimiter} (span : Span) (hk : k ∈ m.kinds) :
    m.close k span = (abandon^[(m.kinds.takeWhile (· ≠ k)).length] m).leave span := by
  unfold close
  cases hm : m.frames with
  | nil => simp [kinds, hm] at hk
  | cons frame outer => simp [hk]

/-- A closing delimiter of the innermost kind closes the innermost frame. -/
theorem close_innermost {m : FrameMachine} {frame : Frame} {outer : List Frame} (span : Span)
    (hm : m.frames = frame :: outer) : m.close frame.kind span = m.leave span := by
  have hkinds : m.kinds = frame.kind :: outer.map Frame.kind := by
    rw [kinds, hm, List.map_cons]
  rw [close_of_mem span (by simp [hkinds]), hkinds]
  simp

/-- A closing delimiter that the innermost group cannot take but some group around it can finds the
same groups once the innermost one is given up. -/
theorem close_abandon {m : FrameMachine} {frame : Frame} {outer : List Frame} {k : Delimiter}
    (span : Span) (hm : m.frames = frame :: outer) (hne : frame.kind ≠ k)
    (hk : k ∈ outer.map Frame.kind) : m.abandon.close k span = m.close k span := by
  have hkinds : m.kinds = frame.kind :: outer.map Frame.kind := by
    rw [kinds, hm, List.map_cons]
  have hinner : m.abandon.kinds = outer.map Frame.kind := by
    rw [kinds_abandon, hkinds, List.tail_cons]
  have hmem : k ∈ m.kinds := by
    rw [hkinds]
    exact List.mem_cons_of_mem _ hk
  rw [close_of_mem span hmem, close_of_mem span (hinner ▸ hk), hinner, hkinds]
  simp [hne]

end FrameMachine

/-- The machine that stands where a cursor stands, while the groups of `frames` are being read. -/
def Cursor.machine (c : Cursor) (frames : List Frame) (forms : List Form) : FrameMachine :=
  ⟨frames, forms, c.previous, c.diagnostics.reverse⟩

namespace FrameMachine

open Reader

/-- Giving up a group is what the machine does where the descent leaves a group unclosed. -/
theorem abandon_machine (c : Cursor) (frame : Frame) (outer : List Frame) (forms : List Form) :
    (c.machine (frame :: outer) forms).abandon
      = ((c.report (unclosed frame.kind frame.opened)).machine outer forms).append
          (frame.group c.previous) := by
  simp [Cursor.machine, abandon, report, leave, Cursor.report, unclosed]

/-- A closing delimiter that fits makes a group of the innermost frame. -/
theorem step_closer_innermost (c : Cursor) (frame : Frame) (outer : List Frame)
    (forms : List Form) (span : Span) (rest : List Token) :
    (c.machine (frame :: outer) forms).step ⟨.closer frame.kind, span⟩
      = ((c.advance ⟨.closer frame.kind, span⟩ rest).machine outer forms).append
          (frame.group span) := by
  unfold step take
  dsimp only
  rw [close_innermost span (rfl : (c.machine (frame :: outer) forms).frames = _)]
  cases outer <;> rfl

/-- A closing delimiter that fits no frame is reported, and the frames stay open. -/
theorem step_closer_mismatched (c : Cursor) (frame : Frame) (outer : List Frame)
    (forms : List Form) (span : Span) (rest : List Token) {k : Delimiter} (hne : k ≠ frame.kind)
    (hk : k ∉ outer.map Frame.kind) :
    (c.machine (frame :: outer) forms).step ⟨.closer k, span⟩
      = ((c.report (mismatched frame.kind frame.opened k span)).advance
          ⟨.closer k, span⟩ rest).machine (frame :: outer) forms := by
  have hmem : k ∉ (c.machine (frame :: outer) forms).kinds := by
    intro h
    rcases List.mem_cons.1 h with h | h
    · exact hne h
    · exact hk h
  have hclose : (c.machine (frame :: outer) forms).close k span
      = (c.machine (frame :: outer) forms).report
          (mismatched frame.kind frame.opened k span) := by
    unfold close
    simp only [hmem, if_false]
    rfl
  unfold step take
  dsimp only
  rw [hclose]
  simp [Cursor.machine, report, Cursor.report, Cursor.advance]

/-- The delimiters around the innermost group are those of the frames around it. -/
theorem insideOuter_iff {c : Cursor} {d : Delimiter} {opened : Span} {outer : List Frame}
    (h : c.opened.entries = (d, opened) :: outer.map Frame.entry) (k : Delimiter) :
    c.opened.insideOuter k = true ↔ k ∈ outer.map Frame.kind := by
  rw [DelimiterStack.insideOuter, h, List.tail_cons, List.any_map, List.any_eq_true, List.mem_map]
  exact exists_congr fun frame => and_congr_right fun _ => decide_eq_true_iff

/-- Where the descent leaves a group unclosed, the machine gives the group up. -/
theorem runFrom_unclosed {c : Cursor} {d : Delimiter} {opened : Span} (items : List Form)
    (outer : List Frame) (forms : List Form)
    (hstop : c.tokens = [] ∨ ∃ t rest, c.tokens = t :: rest ∧
      (t.kind = .eof ∨ ∃ k, t.kind = .closer k ∧ d ≠ k ∧ k ∈ outer.map Frame.kind)) :
    (c.machine (⟨d, opened, items⟩ :: outer) forms).runFrom c.tokens
      = (((c.report (unclosed d opened)).machine outer forms).append
          (Frame.group ⟨d, opened, items⟩ c.previous)).runFrom c.tokens := by
  have habandon := abandon_machine c ⟨d, opened, items⟩ outer forms
  rw [← habandon]
  have hframes : (c.machine (⟨d, opened, items⟩ :: outer) forms).frames
      = ⟨d, opened, items⟩ :: outer := rfl
  rcases hstop with hnil | ⟨t, rest, hcons, heof | ⟨k, hkind, hne, hk⟩⟩
  · rw [hnil, runFrom_nil, runFrom_nil, finish_abandon hframes]
  · rw [hcons, runFrom_of_eof _ rest heof, runFrom_of_eof _ rest heof, finish_abandon hframes]
  · have heof : t.kind ≠ .eof := by
      rw [hkind]
      intro h
      cases h
    rw [hcons, runFrom_of_ne_eof _ rest heof, runFrom_of_ne_eof _ rest heof]
    unfold step take
    simp only [hkind]
    rw [close_abandon t.span hframes hne hk]

/-- Reading the inside of a group by descent takes the machine to the state in which the group is
one more item of what is around it. -/
theorem runFrom_body (d : Delimiter) (opened : Span) (c : Cursor) (items : List Form)
    (outer : List Frame) (forms : List Form)
    (hopened : c.opened.entries = (d, opened) :: outer.map Frame.entry) :
    (body d opened c).cursor.opened = c.opened ∧
    endSpan (body d opened c).cursor.previous (body d opened c).cursor.tokens
      = endSpan c.previous c.tokens ∧
    (c.machine (⟨d, opened, items⟩ :: outer) forms).runFrom c.tokens
      = (((body d opened c).cursor.machine outer forms).append
          (Frame.group ⟨d, opened, items ++ (body d opened c).items⟩
            (body d opened c).stop)).runFrom
        (body d opened c).cursor.tokens := by
  -- By the tokens left: a group inside is read first, with this one as a frame around it, and the
  -- rest of this group is read from where that one was left.
  induction hn : c.tokens.length using Nat.strongRecOn
    generalizing d opened c items outer with
  | _ n ih =>
  subst hn
  cases hc : c.tokens with
  | nil =>
    rw [body_of_nil d opened hc, List.append_nil, ← hc]
    exact ⟨rfl, rfl, runFrom_unclosed items outer forms (.inl hc)⟩
  | cons t rest =>
    obtain ⟨kind, span⟩ := t
    have hless : rest.length < c.tokens.length := by simp [hc]
    rw [body_of_cons d opened hc]
    cases kind with
    | eof =>
      simp only [List.append_nil, ← hc]
      exact ⟨rfl, rfl, runFrom_unclosed items outer forms (.inr ⟨_, _, hc, .inl rfl⟩)⟩
    | invalid =>
      obtain ⟨hstack, hend, hrun⟩ := ih rest.length hless d opened (c.advance ⟨.invalid, span⟩ rest)
        items outer hopened rfl
      refine ⟨hstack, hend, ?_⟩
      rw [runFrom_of_ne_eof _ rest (by simp)]
      exact hrun
    | atom a =>
      obtain ⟨hstack, hend, hrun⟩ := ih rest.length hless d opened (c.advance ⟨.atom a, span⟩ rest)
        (items ++ [.atom a span]) outer hopened rfl
      refine ⟨hstack, hend, ?_⟩
      rw [runFrom_of_ne_eof _ rest (by simp)]
      rw [List.append_assoc] at hrun
      exact hrun
    | closer k =>
      dsimp only
      by_cases hkd : k = d
      · subst hkd
        rw [if_pos rfl]
        refine ⟨rfl, rfl, ?_⟩
        rw [runFrom_of_ne_eof _ rest (by simp), List.append_nil]
        rw [step_closer_innermost c ⟨k, opened, items⟩ outer forms span rest]
        rfl
      · rw [if_neg hkd]
        by_cases hk : k ∈ outer.map Frame.kind
        · rw [if_pos ((insideOuter_iff hopened k).2 hk), List.append_nil, ← hc]
          have hdk : d ≠ k := fun h => hkd h.symm
          exact ⟨rfl, rfl, runFrom_unclosed items outer forms
            (.inr ⟨_, _, hc, .inr ⟨k, rfl, hdk, hk⟩⟩)⟩
        · rw [if_neg (fun h => hk ((insideOuter_iff hopened k).1 h))]
          obtain ⟨hstack, hend, hrun⟩ := ih rest.length hless d opened
            ((c.report (mismatched d opened k span)).advance ⟨.closer k, span⟩ rest)
            items outer hopened rfl
          refine ⟨hstack, hend, ?_⟩
          rw [runFrom_of_ne_eof _ rest (by simp),
            step_closer_mismatched c ⟨d, opened, items⟩ outer forms span rest hkd hk]
          exact hrun
    | opener e =>
      dsimp only
      obtain ⟨hinner, hendInner, hrunInner⟩ := ih rest.length hless e span
        ((c.advance ⟨.opener e, span⟩ rest).enter e span) [] (⟨d, opened, items⟩ :: outer)
        (by simp [Cursor.enter, Cursor.advance, DelimiterStack.push, hopened, Frame.entry]) rfl
      have hlength := length_body_le e span ((c.advance ⟨.opener e, span⟩ rest).enter e span)
      generalize body e span ((c.advance ⟨.opener e, span⟩ rest).enter e span) = inner at *
      have hleave : inner.cursor.leave.opened = c.opened := by
        rw [Cursor.leave, hinner]
        rfl
      obtain ⟨hstack, hend, hrun⟩ := ih inner.cursor.leave.tokens.length
        (Nat.lt_of_le_of_lt hlength hless) d opened inner.cursor.leave
        (items ++ [.group e inner.items (span.cover inner.stop)]) outer
        (by rw [hleave, hopened]) rfl
      refine ⟨hstack.trans hleave, hend.trans hendInner, ?_⟩
      rw [runFrom_of_ne_eof _ rest (by simp)]
      refine Eq.trans hrunInner (Eq.trans hrun ?_)
      rw [List.append_assoc]
      rfl

/-- Reading outside of all groups by descent gives the forms and the problems of the machine. -/
theorem runFrom_readForms (c : Cursor) (forms : List Form) (hopened : c.opened.entries = []) :
    (readForms c).2.currentSpan = endSpan c.previous c.tokens ∧
    (c.machine [] forms).runFrom c.tokens
      = (readForms c).2.machine [] (forms ++ (readForms c).1) := by
  induction hn : c.tokens.length using Nat.strongRecOn generalizing c forms with
  | _ n ih =>
  subst hn
  cases hc : c.tokens with
  | nil =>
    rw [readForms_of_nil hc, List.append_nil]
    exact ⟨by simp [Cursor.currentSpan, hc, endSpan], rfl⟩
  | cons t rest =>
    obtain ⟨kind, span⟩ := t
    have hless : rest.length < c.tokens.length := by simp [hc]
    rw [readForms_of_cons hc]
    cases kind with
    | eof =>
      rw [runFrom_of_eof _ rest rfl, List.append_nil]
      exact ⟨by simp [Cursor.currentSpan, hc, endSpan], rfl⟩
    | invalid =>
      rw [runFrom_of_ne_eof _ rest (by simp)]
      exact ih rest.length hless (c.advance ⟨.invalid, span⟩ rest) forms hopened rfl
    | atom a =>
      obtain ⟨hend, hrun⟩ := ih rest.length hless (c.advance ⟨.atom a, span⟩ rest)
        (forms ++ [.atom a span]) hopened rfl
      rw [List.append_assoc] at hrun
      rw [runFrom_of_ne_eof _ rest (by simp)]
      exact ⟨hend, hrun⟩
    | closer k =>
      obtain ⟨hend, hrun⟩ := ih rest.length hless
        ((c.report (unexpected k span)).advance ⟨.closer k, span⟩ rest) forms hopened rfl
      rw [runFrom_of_ne_eof _ rest (by simp)]
      refine ⟨hend, Eq.trans ?_ hrun⟩
      simp [Cursor.machine, step, take, close, report, Cursor.report, Cursor.advance, unexpected]
    | opener d =>
      dsimp only
      obtain ⟨hinner, hendInner, hrunInner⟩ := runFrom_body d span
        ((c.advance ⟨.opener d, span⟩ rest).enter d span) [] [] forms
        (by simp [Cursor.enter, Cursor.advance, DelimiterStack.push, hopened])
      have hlength := length_body_le d span ((c.advance ⟨.opener d, span⟩ rest).enter d span)
      generalize body d span ((c.advance ⟨.opener d, span⟩ rest).enter d span) = inner at *
      obtain ⟨hend, hrun⟩ := ih inner.cursor.leave.tokens.length (Nat.lt_of_le_of_lt hlength hless)
        inner.cursor.leave (forms ++ [.group d inner.items (span.cover inner.stop)])
        (by simp [Cursor.leave, hinner, Cursor.enter, Cursor.advance, hopened]) rfl
      rw [List.append_assoc] at hrun
      rw [runFrom_of_ne_eof _ rest (by simp)]
      exact ⟨hend.trans hendInner, hrunInner.trans hrun⟩

/-- The forms of a source file are those of the machine. -/
theorem forms_ofTokens (tokens : List Token) :
    (SourceFile.ofTokens tokens).1.forms = (start.runFrom tokens).forms := by
  obtain ⟨-, hrun⟩ := runFrom_readForms (Cursor.start tokens) [] rfl
  exact (congrArg FrameMachine.forms hrun).symm

/-- The problems of a source file are those of the machine. -/
theorem diagnostics_ofTokens (tokens : List Token) :
    (SourceFile.ofTokens tokens).2 = (start.runFrom tokens).diagnostics := by
  obtain ⟨-, hrun⟩ := runFrom_readForms (Cursor.start tokens) [] rfl
  exact (congrArg FrameMachine.diagnostics hrun).symm

/-- The span of a source file is the extent of its tokens. -/
theorem span_ofTokens (tokens : List Token) :
    (SourceFile.ofTokens tokens).1.span = extent tokens := by
  obtain ⟨hend, -⟩ := runFrom_readForms (Cursor.start tokens) [] rfl
  have hfirst : (Cursor.start tokens).currentSpan
      = (tokens.head?.map Token.span).getD .origin := by
    cases tokens <;> rfl
  unfold SourceFile.ofTokens extent
  dsimp only
  rw [hend, hfirst]
  rfl

/-- Descent with a stack of delimiters reads exactly what the machine reads in one pass: the same
forms with the same spans, and the same problems in the same order. -/
theorem ofTokens_eq_read (tokens : List Token) :
    SourceFile.ofTokens tokens = FrameMachine.read tokens := by
  have hfile : (SourceFile.ofTokens tokens).1
      = ⟨(start.runFrom tokens).forms, extent tokens⟩ := by
    rw [← forms_ofTokens, ← span_ofTokens]
  exact Prod.ext hfile (diagnostics_ofTokens tokens)

end FrameMachine

end QLisp
