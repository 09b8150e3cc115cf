import QLisp.Proofs.FrameMachine

/-!
# Reading by position

`SourceFile.ofTokens` holds the tokens that are still to be read. Here the same reading is done with
a position in the list of all tokens, as it is done where the tokens are in an array. A look at a
position outside of the list has no answer. Past the last token the last one is looked at again and
again, so a list without an end mark is never left; a bound on the depth of the calls makes this a
reading without an answer too, whatever the bound is.

Beside the stack of delimiters the reader keeps the chain of the groups that it is inside of, in the
order in which they were entered. The chain decides nothing. Whenever the reader looks at a token
inside of a group, and before it leaves the group, it compares the stack with the chain, and there
is no answer if they differ.

So an answer says that the reading came to an end, that every look was inside of the list, and that
the stack was the chain all along. `Positional.read_succeeds` says that there is an answer whenever
there is an end mark and the bound is more than twice the number of tokens, and that it is the
answer of `SourceFile.ofTokens`.
-/

set_option autoImplicit false

namespace QLisp

/-- The state of a reader that addresses tokens by position. -/
structure Bookmark where
  /-- The position of the next token. -/
  position : Nat
  /-- The delimiters of the groups that are being read. -/
  opened : DelimiterStack
  /-- The problems found so far, the latest first. -/
  diagnostics : List Diagnostic

namespace Bookmark

/-- The state before the first token. -/
def start : Bookmark :=
  ⟨0, .empty, []⟩

section Looks

variable (tokens : List Token) (b : Bookmark)

/-- The token at the position; past the last token, the last one. -/
def current? : Option Token :=
  tokens[min b.position (tokens.length - 1)]?

/-- The kind of the next token. Without any tokens it is that of the end mark. -/
def kind? : Option TokenKind :=
  if tokens.isEmpty then some .eof else (b.current? tokens).map Token.kind

/-- The span of the next token. -/
def span? : Option Span :=
  if tokens.isEmpty then some .origin else (b.current? tokens).map Token.span

/-- The span of the token before the position. -/
def previous? : Option Span :=
  if 0 < b.position then (tokens[b.position - 1]?).map Token.span else some .origin

/-- Moves on by one token, though not past an end mark. -/
def advance? : Option Bookmark := do
  let kind ← b.kind? tokens
  if kind = .eof then some b else some { b with position := b.position + 1 }

/-- Compares the stack with the chain of the groups that were entered, the outermost first. -/
def compared? (calls : List (Delimiter × Span)) : Option Bookmark :=
  if b.opened.entries.reverse = calls then some b else none

end Looks

/-- Adds a problem. -/
def report (b : Bookmark) (d : Diagnostic) : Bookmark :=
  { b with diagnostics := d :: b.diagnostics }

/-- Enters a group. -/
def enter (b : Bookmark) (d : Delimiter) (span : Span) : Bookmark :=
  { b with opened := b.opened.push d span }

/-- Leaves the innermost group. -/
def leave (b : Bookmark) : Bookmark :=
  { b with opened := b.opened.pop }

end Bookmark

namespace Positional

open Reader

/-- What reading the inside of a group gives: its items, the span of what ends the group, and the
state after it. -/
structure Inside where
  items : List Form
  stop : Span
  bookmark : Bookmark

/-- The inside of a group with one more item in front. -/
def Inside.cons (f : Form) (inside : Inside) : Inside :=
  { inside with items := f :: inside.items }

/-- The end of a group at the token before the position, as unclosed. -/
def unclosed? (tokens : List Token) (d : Delimiter) (opened : Span) (b : Bookmark) :
    Option Inside := do
  let stop ← b.previous? tokens
  some ⟨[], stop, b.report (unclosed d opened)⟩

mutual

/-- Reads the group of kind `d` whose opening delimiter is the next token, inside of the groups of
`calls`. -/
def readGroup? (tokens : List Token) (depth : Nat) (calls : List (Delimiter × Span))
    (d : Delimiter) (b : Bookmark) : Option (Form × Bookmark) :=
  match depth with
  | 0 => none
  | depth + 1 => do
    let opened ← b.span? tokens
    let b ← b.advance? tokens
    let inside ← readInside? tokens depth (calls ++ [(d, opened)]) d opened (b.enter d opened)
    let b ← inside.bookmark.compared? (calls ++ [(d, opened)])
    some (.group d inside.items (opened.cover inside.stop), b.leave)

/-- Reads on in the group of kind `d` that was opened at `opened`. -/
def readInside? (tokens : List Token) (depth : Nat) (calls : List (Delimiter × Span))
    (d : Delimiter) (opened : Span) (b : Bookmark) : Option Inside :=
  match depth with
  | 0 => none
  | depth + 1 => do
    let b ← b.compared? calls
    let kind ← b.kind? tokens
    match kind with
    | .eof => unclosed? tokens d opened b
    | .closer k =>
      let span ← b.span? tokens
      if k = d then
        let b ← b.advance? tokens
        some ⟨[], span, b⟩
      else if b.opened.insideOuter k then unclosed? tokens d opened b
      else
        let b ← (b.report (mismatched d opened k span)).advance? tokens
        readInside? tokens depth calls d opened b
    | .invalid =>
      let b ← b.advance? tokens
      readInside? tokens depth calls d opened b
    | .atom a =>
      let span ← b.span? tokens
      let b ← b.advance? tokens
      let inside ← readInside? tokens depth calls d opened b
      some (inside.cons (.atom a span))
    | .opener e =>
      let (form, b) ← readGroup? tokens depth calls e b
      let inside ← readInside? tokens depth calls d opened b
      some (inside.cons form)

end

/-- Reads the forms outside of all groups. -/
def readForms? (tokens : List Token) (depth : Nat) (b : Bookmark) :
    Option (List Form × Bookmark) :=
  match depth with
  | 0 => none
  | depth + 1 => do
    let b ← b.compared? []
    let kind ← b.kind? tokens
    match kind with
    | .eof => some ([], b)
    | .closer k =>
      let span ← b.span? tokens
      let b ← (b.report (unexpected k span)).advance? tokens
      readForms? tokens depth b
    | .invalid =>
      let b ← b.advance? tokens
      readForms? tokens depth b
    | .atom a =>
      let span ← b.span? tokens
      let b ← b.advance? tokens
      let (forms, b) ← readForms? tokens depth b
      some (.atom a span :: forms, b)
    | .opener d =>
      let (form, b) ← readGroup? tokens depth [] d b
      let (forms, b) ← readForms? tokens depth b
      some (form :: forms, b)

/-- Reads tokens by position, with calls no deeper than `depth`: the forms with the problems in
their nesting, and the state in which the reading stops. -/
def read? (tokens : List Token) (depth : Nat) :
    Option ((SourceFile × List Diagnostic) × Bookmark) := do
  let first ← Bookmark.start.span? tokens
  let (forms, stop) ← readForms? tokens depth .start
  let last ← stop.span? tokens
  some ((⟨forms, first.cover last⟩, stop.diagnostics.reverse), stop)

end Positional

/-! ## Positions and cursors -/

namespace Bookmark

/-- A position and a cursor that stand at the same token, with an end mark ahead and none behind. -/
structure At (tokens : List Token) (b : Bookmark) (c : Cursor) : Prop where
  tokens_eq : tokens.drop b.position = c.tokens
  previous_eq : b.previous? tokens = some c.previous
  opened_eq : b.opened = c.opened
  diagnostics_eq : b.diagnostics = c.diagnostics
  ahead : ∃ t ∈ c.tokens, t.kind = .eof
  behind : ∀ t ∈ tokens.take b.position, t.kind ≠ .eof

/-- A bookmark at the start is at the start of the tokens. -/
theorem at_start {tokens : List Token} (h : ∃ t ∈ tokens, t.kind = .eof) :
    start.At tokens (Cursor.start tokens) :=
  ⟨rfl, rfl, rfl, rfl, h, by simp [start]⟩

namespace At

variable {tokens rest : List Token} {b : Bookmark} {c : Cursor} {t : Token}

/-- Where a bookmark is, there are tokens left. -/
theorem ne_nil (h : b.At tokens c) : c.tokens ≠ [] := by
  obtain ⟨t, ht, -⟩ := h.ahead
  exact List.ne_nil_of_mem ht

/-- The token at a bookmark is the next one. -/
theorem getElem?_eq (h : b.At tokens c) (hc : c.tokens = t :: rest) :
    tokens[b.position]? = some t := by
  rw [← List.head?_drop, h.tokens_eq, hc, List.head?_cons]

/-- The current token is the next one. -/
theorem current?_eq (h : b.At tokens c) (hc : c.tokens = t :: rest) :
    b.current? tokens = some t := by
  have hlook := h.getElem?_eq hc
  obtain ⟨hlt, -⟩ := List.getElem?_eq_some_iff.1 hlook
  have hmin : min b.position (tokens.length - 1) = b.position := by omega
  rw [current?, hmin, hlook]

/-- Where a bookmark is, there are tokens. -/
theorem isEmpty_eq (h : b.At tokens c) (hc : c.tokens = t :: rest) : tokens.isEmpty = false := by
  cases tokens with
  | nil => simp [← h.tokens_eq] at hc
  | cons u us => rfl

/-- The current kind is that of the next token. -/
theorem kind?_eq (h : b.At tokens c) (hc : c.tokens = t :: rest) :
    b.kind? tokens = some t.kind := by
  simp [kind?, h.isEmpty_eq hc, h.current?_eq hc]

/-- The current span is that of the next token. -/
theorem span?_eq (h : b.At tokens c) (hc : c.tokens = t :: rest) :
    b.span? tokens = some t.span := by
  simp [span?, h.isEmpty_eq hc, h.current?_eq hc]

/-- The current span is that of the cursor. -/
theorem span?_eq_currentSpan (h : b.At tokens c) : b.span? tokens = some c.currentSpan := by
  obtain ⟨t, rest, hc⟩ := List.exists_cons_of_ne_nil h.ne_nil
  rw [h.span?_eq hc, Cursor.currentSpan, hc]

/-- Reporting a problem does not move. -/
theorem report (h : b.At tokens c) (d : Diagnostic) :
    (b.report d).At tokens (c.report d) :=
  ⟨h.tokens_eq, h.previous_eq, h.opened_eq, congrArg (d :: ·) h.diagnostics_eq, h.ahead, h.behind⟩

/-- Opening a delimiter does not move. -/
theorem enter (h : b.At tokens c) (d : Delimiter) (span : Span) :
    (b.enter d span).At tokens (c.enter d span) :=
  ⟨h.tokens_eq, h.previous_eq, congrArg (·.push d span) h.opened_eq, h.diagnostics_eq, h.ahead,
    h.behind⟩

/-- Closing a delimiter does not move. -/
theorem leave (h : b.At tokens c) : b.leave.At tokens c.leave :=
  ⟨h.tokens_eq, h.previous_eq, congrArg DelimiterStack.pop h.opened_eq, h.diagnostics_eq, h.ahead,
    h.behind⟩

/-- Past a token that is no end mark there is still one ahead. -/
theorem advance (h : b.At tokens c) (hc : c.tokens = t :: rest) (hkind : t.kind ≠ .eof) :
    ∃ b', b.advance? tokens = some b' ∧ b'.At tokens (c.advance t rest) := by
  have hlook := h.getElem?_eq hc
  refine ⟨{ b with position := b.position + 1 }, ?_, ?_, ?_, h.opened_eq, h.diagnostics_eq, ?_, ?_⟩
  · simp [advance?, h.kind?_eq hc, hkind]
  · have hdrop := congrArg List.tail h.tokens_eq
    rw [List.tail_drop, hc] at hdrop
    exact hdrop
  · simp [previous?, hlook, Cursor.advance]
  · obtain ⟨u, hu, heof⟩ := h.ahead
    rw [hc] at hu
    rcases List.mem_cons.1 hu with rfl | hu
    · exact absurd heof hkind
    · exact ⟨u, hu, heof⟩
  · intro u hu
    rw [List.take_add_one, hlook, List.mem_append] at hu
    rcases hu with hu | hu
    · exact h.behind u hu
    · obtain rfl : u = t := by simpa using hu
      exact hkind

/-- The stack is what the calls have opened. -/
theorem compared?_eq (h : b.At tokens c) {calls : List (Delimiter × Span)}
    (hcalls : c.opened.entries.reverse = calls) : b.compared? calls = some b := by
  rw [← h.opened_eq] at hcalls
  exact if_pos hcalls

end At

end Bookmark

namespace Positional

open Reader

variable {tokens rest : List Token} {depth : Nat} {calls : List (Delimiter × Span)} {b : Bookmark}
  {c : Cursor}

/-- A group is given up at the token before the position. -/
theorem unclosed?_eq (h : b.At tokens c) (d : Delimiter) (opened : Span) :
    unclosed? tokens d opened b = some ⟨[], c.previous, b.report (unclosed d opened)⟩ := by
  rw [unclosed?, h.previous_eq]
  rfl

/-- What it means that reading the inside of a group by position goes as reading it by descent. -/
def FollowsBody (tokens : List Token) (depth : Nat) (calls : List (Delimiter × Span))
    (d : Delimiter) (opened : Span) (b : Bookmark) (c : Cursor) : Prop :=
  ∃ b', readInside? tokens depth calls d opened b
      = some ⟨(body d opened c).items, (body d opened c).stop, b'⟩ ∧
    b'.At tokens (body d opened c).cursor ∧ (body d opened c).cursor.opened = c.opened

/-- The delimiter that was opened last stands at the end. -/
theorem reverse_entries_enter (c : Cursor) (t : Token) (rest : List Token) (e : Delimiter)
    (span : Span) :
    ((c.advance t rest).enter e span).opened.entries.reverse
      = c.opened.entries.reverse ++ [(e, span)] :=
  List.reverse_cons

/-- A group is read by position as it is read by descent if its inside is. -/
theorem readGroup?_eq {e : Delimiter} {span : Span} {inner : Body} (h : b.At tokens c)
    (hcalls : c.opened.entries.reverse = calls) (hc : c.tokens = ⟨.opener e, span⟩ :: rest)
    (hinner : body e span ((c.advance ⟨.opener e, span⟩ rest).enter e span) = inner)
    (hinside : ∀ b', b'.At tokens ((c.advance ⟨.opener e, span⟩ rest).enter e span) →
      FollowsBody tokens depth (calls ++ [(e, span)]) e span b'
        ((c.advance ⟨.opener e, span⟩ rest).enter e span)) :
    ∃ b', readGroup? tokens (depth + 1) calls e b
        = some (.group e inner.items (span.cover inner.stop), b') ∧
      b'.At tokens inner.cursor.leave ∧ inner.cursor.leave.opened = c.opened ∧
      inner.cursor.leave.tokens.length ≤ rest.length := by
  obtain ⟨b₁, hadvance, hat⟩ := h.advance hc (by simp)
  obtain ⟨b₂, hread, hat₂, hopened⟩ := hinside _ (hat.enter e span)
  rw [hinner] at hread hat₂ hopened
  have hchain : inner.cursor.opened.entries.reverse = calls ++ [(e, span)] := by
    rw [hopened, reverse_entries_enter, hcalls]
  refine ⟨b₂.leave, ?_, hat₂.leave, ?_, ?_⟩
  · rw [readGroup?]
    simp only [h.span?_eq hc, hadvance, hread, hat₂.compared?_eq hchain, Option.bind_eq_bind,
      Option.bind_some]
  · rw [Cursor.leave, hopened]
    rfl
  · rw [← hinner]
    exact length_body_le e span ((c.advance ⟨.opener e, span⟩ rest).enter e span)

/-- The inside of a group is read by position as it is read by descent. A token takes two calls at
most, one that finds it and one that enters the group it opens. -/
theorem readInside?_follows (d : Delimiter) (opened : Span) (h : b.At tokens c)
    (hcalls : c.opened.entries.reverse = calls) (hdepth : 2 * c.tokens.length < depth) :
    FollowsBody tokens depth calls d opened b c := by
  induction depth using Nat.strongRecOn generalizing d opened calls b c with
  | _ n ih =>
  obtain ⟨depth, rfl⟩ : ∃ depth, n = depth + 1 := ⟨n - 1, by omega⟩
  obtain ⟨⟨kind, span⟩, rest, hc⟩ := List.exists_cons_of_ne_nil h.ne_nil
  have hrest : 2 * rest.length + 1 < depth := by
    rw [hc, List.length_cons] at hdepth
    omega
  have hless : 2 * rest.length < depth := Nat.lt_of_succ_lt hrest
  unfold FollowsBody
  rw [readInside?, body_of_cons d opened hc]
  simp only [h.compared?_eq hcalls, h.kind?_eq hc, Option.bind_eq_bind, Option.bind_some]
  cases kind with
  | eof =>
    exact ⟨_, unclosed?_eq h d opened, h.report _, rfl⟩
  | invalid =>
    obtain ⟨b₁, hadvance, hat⟩ := h.advance hc (by simp)
    simp only [hadvance, Option.bind_some]
    exact ih depth (Nat.lt_succ_self depth) d opened hat hcalls hless
  | atom a =>
    obtain ⟨b₁, hadvance, hat⟩ := h.advance hc (by simp)
    obtain ⟨b₂, hread, hat₂, hopened⟩ :=
      ih depth (Nat.lt_succ_self depth) d opened hat hcalls hless
    simp only [h.span?_eq hc, hadvance, hread, Option.bind_some]
    exact ⟨b₂, rfl, hat₂, hopened⟩
  | closer k =>
    simp only [h.span?_eq hc, h.opened_eq, Option.bind_some]
    split
    · obtain ⟨b₁, hadvance, hat⟩ := h.advance hc (by simp)
      simp only [hadvance, Option.bind_some]
      exact ⟨b₁, rfl, hat, rfl⟩
    split
    · exact ⟨_, unclosed?_eq h d opened, h.report _, rfl⟩
    · obtain ⟨b₁, hadvance, hat⟩ :=
        (h.report (mismatched d opened k span)).advance hc (by simp)
      simp only [hadvance, Option.bind_some]
      exact ih depth (Nat.lt_succ_self depth) d opened hat hcalls hless
  | opener e =>
    -- The group may end before a token that it does not take. The list is shorter all the same, by
    -- the delimiter that opened the group.
    obtain ⟨inner, hinner⟩ :
        ∃ inner, body e span ((c.advance ⟨.opener e, span⟩ rest).enter e span) = inner := ⟨_, rfl⟩
    obtain ⟨deeper, rfl⟩ : ∃ deeper, depth = deeper + 1 := ⟨depth - 1, by omega⟩
    obtain ⟨b₁, hgroup, hat, hopened, hlength⟩ := readGroup?_eq h hcalls hc hinner fun b' hat =>
      ih deeper (by omega) e span hat (by rw [reverse_entries_enter, hcalls])
        (Nat.lt_of_succ_lt_succ hrest)
    obtain ⟨b₂, hread, hat₂, hopened₂⟩ := ih (deeper + 1) (Nat.lt_succ_self _) d opened hat
      (by rw [hopened, hcalls]) (by omega)
    simp only [hinner, hgroup, hread, Option.bind_some]
    exact ⟨b₂, rfl, hat₂, hopened₂.trans hopened⟩

/-- The forms outside of all groups are read by position as they are read by descent, up to an end
mark. -/
theorem readForms?_eq (h : b.At tokens c) (hopened : c.opened = .empty)
    (hdepth : 2 * c.tokens.length < depth) :
    ∃ b', readForms? tokens depth b = some ((readForms c).1, b') ∧ b'.At tokens (readForms c).2 ∧
      (readForms c).2.opened = .empty ∧
      ∃ t rest, (readForms c).2.tokens = t :: rest ∧ t.kind = .eof := by
  induction depth generalizing b c with
  | zero => omega
  | succ depth ih =>
  obtain ⟨⟨kind, span⟩, rest, hc⟩ := List.exists_cons_of_ne_nil h.ne_nil
  have hrest : 2 * rest.length + 1 < depth := by
    rw [hc, List.length_cons] at hdepth
    omega
  have hless : 2 * rest.length < depth := Nat.lt_of_succ_lt hrest
  have hchain : c.opened.entries.reverse = [] := by
    rw [hopened]
    rfl
  rw [readForms?, readForms_of_cons hc]
  simp only [h.compared?_eq hchain, h.kind?_eq hc, Option.bind_eq_bind, Option.bind_some]
  cases kind with
  | eof => exact ⟨b, rfl, h, hopened, _, _, hc, rfl⟩
  | invalid =>
    obtain ⟨b₁, hadvance, hat⟩ := h.advance hc (by simp)
    simp only [hadvance, Option.bind_some]
    exact ih hat hopened hless
  | atom a =>
    obtain ⟨b₁, hadvance, hat⟩ := h.advance hc (by simp)
    obtain ⟨b₂, hread, hafter⟩ := ih hat hopened hless
    simp only [h.span?_eq hc, hadvance, hread, Option.bind_some]
    exact ⟨b₂, rfl, hafter⟩
  | closer k =>
    obtain ⟨b₁, hadvance, hat⟩ := (h.report (unexpected k span)).advance hc (by simp)
    simp only [h.span?_eq hc, hadvance, Option.bind_some]
    exact ih hat hopened hless
  | opener e =>
    obtain ⟨inner, hinner⟩ :
        ∃ inner, body e span ((c.advance ⟨.opener e, span⟩ rest).enter e span) = inner := ⟨_, rfl⟩
    obtain ⟨deeper, rfl⟩ : ∃ deeper, depth = deeper + 1 := ⟨depth - 1, by omega⟩
    obtain ⟨b₁, hgroup, hat, hleft, hlength⟩ := readGroup?_eq h hchain hc hinner fun b' hat =>
      readInside?_follows e span hat (by rw [reverse_entries_enter, hchain])
        (Nat.lt_of_succ_lt_succ hrest)
    obtain ⟨b₂, hread, hafter⟩ := ih hat (hleft.trans hopened) (by omega)
    simp only [hinner, hgroup, hread, Option.bind_some]
    exact ⟨b₂, rfl, hafter⟩

/-- At the end of the source, the position is that of the first token for the end. -/
theorem position_eq_findIdx {t : Token} (h : b.At tokens c) (hc : c.tokens = t :: rest)
    (hkind : t.kind = .eof) : b.position = tokens.findIdx fun t => t.kind = .eof := by
  obtain ⟨hlt, hget⟩ := List.getElem?_eq_some_iff.1 (h.getElem?_eq hc)
  symm
  rw [List.findIdx_eq hlt, hget]
  refine ⟨decide_eq_true hkind, ?_⟩
  intro j hj
  refine decide_eq_false (h.behind _ ?_)
  exact List.mem_take_iff_getElem.2 ⟨j, by omega, rfl⟩

end Positional

namespace FrameMachine

section Mark

variable {front : List Token} {mark : Token} (hfront : ∀ t ∈ front, t.kind ≠ .eof)
  (hmark : mark.kind = .eof)

include hfront hmark

/-- The tokens before the end do not depend on those behind it. -/
theorem beforeEnd_append (after : List Token) : beforeEnd (front ++ mark :: after) = front := by
  have hall : ∀ t ∈ front, decide (t.kind ≠ .eof) = true :=
    fun t ht => decide_eq_true (hfront t ht)
  rw [beforeEnd, List.takeWhile_append_of_pos hall, List.takeWhile_cons_of_neg (by simp [hmark]),
    List.append_nil]

/-- The span at the end does not depend on the tokens behind it. -/
theorem endSpan_append (previous : Span) (after : List Token) :
    endSpan previous (front ++ mark :: after) = mark.span := by
  induction front generalizing previous with
  | nil => exact if_pos hmark
  | cons t front ih =>
    obtain ⟨ht, hfront⟩ := List.forall_mem_cons.1 hfront
    rw [List.cons_append, endSpan, if_neg ht]
    exact ih hfront t.span

/-- What is read does not depend on the tokens after the first end mark. -/
theorem ofTokens_append (after after' : List Token) :
    SourceFile.ofTokens (front ++ mark :: after)
      = SourceFile.ofTokens (front ++ mark :: after') := by
  have hrun : start.runFrom (front ++ mark :: after) = start.runFrom (front ++ mark :: after') := by
    rw [runFrom, runFrom, beforeEnd_append hfront hmark, beforeEnd_append hfront hmark]
  have hextent : extent (front ++ mark :: after) = extent (front ++ mark :: after') := by
    rw [extent, extent, endSpan_append hfront hmark, endSpan_append hfront hmark]
    cases front <;> rfl
  have hforms : (SourceFile.ofTokens (front ++ mark :: after)).1.forms
      = (SourceFile.ofTokens (front ++ mark :: after')).1.forms := by
    rw [forms_ofTokens, forms_ofTokens, hrun]
  have hspan : (SourceFile.ofTokens (front ++ mark :: after)).1.span
      = (SourceFile.ofTokens (front ++ mark :: after')).1.span := by
    rw [span_ofTokens, span_ofTokens, hextent]
  refine Prod.ext (congrArg₂ SourceFile.mk hforms hspan) ?_
  rw [diagnostics_ofTokens, diagnostics_ofTokens, hrun]

end Mark

end FrameMachine

namespace Positional

/-- Without tokens there is nothing to look at. -/
theorem read?_nil {depth : Nat} (hdepth : 0 < depth) :
    read? [] depth = some (SourceFile.ofTokens [], .start) := by
  obtain ⟨depth, rfl⟩ : ∃ deeper, depth = deeper + 1 := ⟨depth - 1, by omega⟩
  have hforms : readForms? [] (depth + 1) .start = some ([], .start) := by
    rw [readForms?]
    rfl
  rw [read?, hforms, SourceFile.ofTokens, Reader.readForms_of_nil rfl]
  rfl

/-- Tokens with an end mark among them are read up to the first one. -/
theorem exists_read?_eq {tokens : List Token} {depth : Nat} (h : ∃ t ∈ tokens, t.kind = .eof)
    (hdepth : 2 * tokens.length < depth) :
    ∃ stop, read? tokens depth = some (SourceFile.ofTokens tokens, stop) ∧
      stop.position = (tokens.findIdx fun t => t.kind = .eof) ∧ stop.opened = .empty := by
  have hstart := Bookmark.at_start h
  obtain ⟨stop, hread, hat, hopened, t, rest, hstop, hkind⟩ := readForms?_eq hstart rfl hdepth
  refine ⟨stop, ?_, position_eq_findIdx hat hstop hkind, hat.opened_eq.trans hopened⟩
  simp only [read?, hstart.span?_eq_currentSpan, hread, hat.span?_eq_currentSpan,
    hat.diagnostics_eq, Option.bind_eq_bind, Option.bind_some]
  rfl

/-- Tokens with an end mark among them, or no tokens at all, are read by position as they are read
by descent, with calls no deeper than twice the number of tokens and one: the reading ends, all its
looks are inside of the list, and inside of every group the stack of delimiters holds the groups
that were entered, the outermost first. It stops at the first end mark with nothing open, and the
tokens after that mark have no influence. -/
theorem read_succeeds (tokens : List Token) (h : tokens = [] ∨ ∃ t ∈ tokens, t.kind = .eof) :
    (∀ depth, 2 * tokens.length < depth →
      ∃ stop, read? tokens depth = some (SourceFile.ofTokens tokens, stop) ∧
        stop.position = (tokens.findIdx fun t => t.kind = .eof) ∧ stop.opened = .empty) ∧
    ∀ front mark after, tokens = front ++ mark :: after → (∀ t ∈ front, t.kind ≠ .eof) →
      mark.kind = .eof → ∀ after',
        SourceFile.ofTokens (front ++ mark :: after') = SourceFile.ofTokens tokens := by
  refine ⟨?_, ?_⟩
  · intro depth hdepth
    rcases h with rfl | h
    · exact ⟨.start, read?_nil hdepth, rfl, rfl⟩
    · exact exists_read?_eq h hdepth
  · rintro front mark after rfl hfront hmark after'
    exact FrameMachine.ofTokens_append hfront hmark after' after

/-- A brace that is given up for the parenthesis around it, and a closing delimiter after the end
mark that is never looked at. -/
theorem read_succeeds_unbalanced :
    ∃ stop,
      read? [⟨.opener .paren, ⟨0, 1⟩⟩, ⟨.opener .brace, ⟨1, 2⟩⟩, ⟨.closer .paren, ⟨2, 3⟩⟩,
          ⟨.eof, ⟨3, 3⟩⟩, ⟨.closer .brace, ⟨4, 5⟩⟩] 11
        = some (SourceFile.ofTokens [⟨.opener .paren, ⟨0, 1⟩⟩, ⟨.opener .brace, ⟨1, 2⟩⟩,
            ⟨.closer .paren, ⟨2, 3⟩⟩, ⟨.eof, ⟨3, 3⟩⟩, ⟨.closer .brace, ⟨4, 5⟩⟩], stop) ∧
      stop.position = 3 ∧ stop.opened = .empty := by
  obtain ⟨hread, -⟩ := read_succeeds
    [⟨.opener .paren, ⟨0, 1⟩⟩, ⟨.opener .brace, ⟨1, 2⟩⟩, ⟨.closer .paren, ⟨2, 3⟩⟩,
      ⟨.eof, ⟨3, 3⟩⟩, ⟨.closer .brace, ⟨4, 5⟩⟩] (.inr ⟨⟨.eof, ⟨3, 3⟩⟩, by decide, rfl⟩)
  obtain ⟨stop, hread, hposition, hopened⟩ := hread 11 (by decide)
  exact ⟨stop, hread, hposition, hopened⟩

end Positional

end QLisp
