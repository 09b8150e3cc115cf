import QLisp.Diagnostic.Basic
import QLisp.Form.Basic
import QLisp.Token.Lexeme

/-!
# Reading forms

Tokens are read into forms by descent: the items of a group are read one after the other, and an
opening delimiter starts a group inside. Faulty nesting does not stop the reader.

* A closing delimiter outside of all groups is reported and skipped.
* A closing delimiter of the other kind ends the innermost group as unclosed if some group further
  out can take it; otherwise it is reported as mismatched and skipped.
* The end of the source ends every open group as unclosed.

The reader keeps the open delimiters on a stack, to know which groups further out there are. Invalid
tokens were reported by the scan and are skipped.
-/

set_option autoImplicit false

namespace QLisp

/-- The state of the reader. -/
structure Cursor where
  /-- The tokens that are still to be read. -/
  tokens : List Token
  /-- The span of the token read last. -/
  previous : Span
  /-- The delimiters of the groups that are being read. -/
  opened : DelimiterStack
  /-- The problems found so far, the latest first. -/
  diagnostics : List Diagnostic

namespace Cursor

/-- The state before the first token. -/
def start (tokens : List Token) : Cursor :=
  ⟨tokens, .origin, .empty, []⟩

/-- The state after the token `t`, which is followed by `rest`. -/
def advance (c : Cursor) (t : Token) (rest : List Token) : Cursor :=
  { c with tokens := rest, previous := t.span }

/-- Adds a problem. -/
def report (c : Cursor) (d : Diagnostic) : Cursor :=
  { c with diagnostics := d :: c.diagnostics }

/-- Enters a group. -/
def enter (c : Cursor) (d : Delimiter) (span : Span) : Cursor :=
  { c with opened := c.opened.push d span }

/-- Leaves the innermost group. -/
def leave (c : Cursor) : Cursor :=
  { c with opened := c.opened.pop }

/-- The span of the next token; after the last token, that of the last one. -/
def currentSpan (c : Cursor) : Span :=
  match c.tokens with
  | [] => c.previous
  | t :: _ => t.span

end Cursor

namespace Reader

/-- An opening delimiter at `span` that is not closed. -/
def unclosed (d : Delimiter) (span : Span) : Diagnostic :=
  .unclosedDelimiter span d.opening d.closing

/-- A closing delimiter at `span` that closes nothing. -/
def unexpected (d : Delimiter) (span : Span) : Diagnostic :=
  .unexpectedCloser span d.closing

/-- A closing delimiter `found` at `span` inside of a group of another kind. -/
def mismatched (d : Delimiter) (opened : Span) (found : Delimiter) (span : Span) : Diagnostic :=
  .mismatchedDelimiter span opened d.closing found.closing

/-- What reading the inside of a group gives: its items, the span of what ends the group, and the
state after it. -/
structure Body where
  items : List Form
  stop : Span
  cursor : Cursor

/-- The inside of a group with one more item in front. -/
def Body.cons (f : Form) (b : Body) : Body :=
  { b with items := f :: b.items }

/-- Reads the inside of the group of kind `d` that was opened at `opened`, its end included. No
tokens are made up on the way. -/
def readBody (d : Delimiter) (opened : Span) (c : Cursor) :
    { b : Body // b.cursor.tokens.length ≤ c.tokens.length } :=
  match hc : c.tokens with
  | [] => ⟨⟨[], c.previous, c.report (unclosed d opened)⟩, by simp [Cursor.report, hc]⟩
  | t :: rest =>
    match t.kind with
    | .eof => ⟨⟨[], c.previous, c.report (unclosed d opened)⟩, by simp [Cursor.report, hc]⟩
    | .closer k =>
      if k = d then ⟨⟨[], t.span, c.advance t rest⟩, by simp [Cursor.advance]⟩
      else if c.opened.insideOuter k then
        ⟨⟨[], c.previous, c.report (unclosed d opened)⟩, by simp [Cursor.report, hc]⟩
      else
        let b := readBody d opened ((c.report (mismatched d opened k t.span)).advance t rest)
        ⟨b.val, Nat.le_succ_of_le b.property⟩
    | .invalid =>
      let b := readBody d opened (c.advance t rest)
      ⟨b.val, Nat.le_succ_of_le b.property⟩
    | .atom a =>
      let b := readBody d opened (c.advance t rest)
      ⟨b.val.cons (.atom a t.span), Nat.le_succ_of_le b.property⟩
    | .opener e =>
      let ⟨inner, hinner⟩ := readBody e t.span ((c.advance t rest).enter e t.span)
      let ⟨outer, houter⟩ := readBody d opened inner.cursor.leave
      ⟨outer.cons (.group e inner.items (t.span.cover inner.stop)),
        Nat.le_succ_of_le (Nat.le_trans houter hinner)⟩
termination_by c.tokens.length
decreasing_by
  all_goals simp only [hc, Cursor.advance, Cursor.report, Cursor.enter, Cursor.leave,
    List.length_cons] at *
  all_goals omega

/-- Reads the forms outside of all groups, up to the end of the tokens. -/
def readForms (c : Cursor) : List Form × Cursor :=
  match _hc : c.tokens with
  | [] => ([], c)
  | t :: rest =>
    match t.kind with
    | .eof => ([], c)
    | .closer k => readForms ((c.report (unexpected k t.span)).advance t rest)
    | .invalid => readForms (c.advance t rest)
    | .atom a =>
      let (forms, c') := readForms (c.advance t rest)
      (.atom a t.span :: forms, c')
    | .opener d =>
      let ⟨body, _hbody⟩ := readBody d t.span ((c.advance t rest).enter d t.span)
      let (forms, c') := readForms body.cursor.leave
      (.group d body.items (t.span.cover body.stop) :: forms, c')
termination_by c.tokens.length
decreasing_by
  all_goals simp only [_hc, Cursor.advance, Cursor.report, Cursor.enter, Cursor.leave,
    List.length_cons] at *
  all_goals omega

end Reader

namespace SourceFile

/-- Reads tokens up to the first mark of the end of a source. The forms come with the problems in
their nesting, in the order in which they are found. -/
def ofTokens (tokens : List Token) : SourceFile × List Diagnostic :=
  let start := Cursor.start tokens
  let (forms, stop) := Reader.readForms start
  (⟨forms, start.currentSpan.cover stop.currentSpan⟩, stop.diagnostics.reverse)

/-- Diagnostics in the order of the places where they start; those that start at the same place
stay as they are. -/
def sortDiagnostics (ds : List Diagnostic) : List Diagnostic :=
  ds.mergeSort fun a b => a.position ≤ b.position

/-- Reads a source. The forms come with all problems of the source in the order of the text. -/
def ofSource (source : String) : SourceFile × List Diagnostic :=
  let (file, nesting) := ofTokens (Token.ofSource source)
  (file, sortDiagnostics (Token.diagnosticsOfSource source ++ nesting))

end SourceFile

end QLisp
