import QLisp.Source.Location
import QLisp.Diagnostic.Code

/-!
# Diagnostics

A diagnostic describes one problem found while a text is read: where it is, what it is, which spans
to point at and what to do about it. The five problems that reading can find have a constructor
each, so that their wording is in one place.
-/

set_option autoImplicit false

namespace QLisp

/-- What found a problem: the scan for tokens, or the nesting of delimiters. -/
inductive Stage where
  | lexer
  | parser
deriving DecidableEq

/-- A span to point at and what to say about it. -/
structure Label where
  span : Span
  message : String
deriving DecidableEq

/-- A problem in a source text. -/
structure Diagnostic where
  stage : Stage
  span : Span
  message : String
  code : Option Code := none
  labels : List Label := []
  help : Option String := none
deriving DecidableEq

namespace Diagnostic

/-- Gives a diagnostic its code; the code's advice becomes the help unless there is one already. -/
def withCode (d : Diagnostic) (code : Code) : Diagnostic :=
  { d with code := some code, help := d.help.or code.suggestion? }

/-- Adds a label after those there are. -/
def withLabel (d : Diagnostic) (span : Span) (message : String) : Diagnostic :=
  { d with labels := d.labels ++ [⟨span, message⟩] }

/-- Replaces the help. -/
def withHelp (d : Diagnostic) (help : String) : Diagnostic :=
  { d with help := some help }

/-- The byte offset at which the problem starts. -/
def position (d : Diagnostic) : Nat :=
  d.span.start.toNat

/-- The line and column at which the problem starts. -/
def location (d : Diagnostic) (source : String) : Location :=
  Location.locate source d.span.start

/-- A quote at byte offset `opening` that is not closed before the end of the source. -/
def unterminatedString (span : Span) (opening : Nat) : Diagnostic :=
  ({ stage := .lexer, span, message := "unterminated string literal" } : Diagnostic)
    |>.withCode .unterminatedString
    |>.withLabel (Span.byteAt opening) "string starts here"

/-- A character that starts no token. -/
def unexpectedCharacter (c : Char) (span : Span) : Diagnostic :=
  ({ stage := .lexer, span, message := "unexpected character: '" ++ c.toString ++ "'" } :
      Diagnostic)
    |>.withCode .unexpectedCharacter
    |>.withLabel span "unexpected character here"

/-- An opening delimiter whose form ends without its closing one. -/
def unclosedDelimiter (span : Span) (opening closing : String) : Diagnostic :=
  ({ stage := .parser, span, message := "unclosed delimiter `" ++ opening ++ "`" } : Diagnostic)
    |>.withCode .unclosedDelimiter
    |>.withLabel span "opened here"
    |>.withHelp ("add `" ++ closing ++ "` to close it")

/-- A closing delimiter outside of all forms. -/
def unexpectedCloser (span : Span) (closing : String) : Diagnostic :=
  ({ stage := .parser, span, message := "unexpected closing delimiter `" ++ closing ++ "`" } :
      Diagnostic)
    |>.withCode .unexpectedClosingDelimiter
    |>.withLabel span "nothing to close here"

/-- A closing delimiter of a kind that none of the open forms around it has. -/
def mismatchedDelimiter (span opened : Span) (expected found : String) : Diagnostic :=
  ({ stage := .parser, span,
     message := "mismatched closing delimiter: expected `" ++ expected ++ "`, found `" ++ found
       ++ "`" } : Diagnostic)
    |>.withCode .mismatchedDelimiter
    |>.withLabel span "mismatched closer"
    |>.withLabel opened "opened here"

end Diagnostic

end QLisp
