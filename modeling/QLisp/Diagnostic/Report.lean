import QLisp.Diagnostic.Basic

/-!
# Reports

A report presents a diagnostic to a person: a header with the code and the message, the place in
the source, and the help. The source is drawn beneath the place, so a report that has nothing to
draw gives neither place nor help.

A report reads the offsets of a diagnostic as character offsets, and its lines end after every
Unicode line terminator. A terminator at the very end of a source starts no further line.
-/

set_option autoImplicit false

namespace QLisp

/-- A diagnostic as it is presented. -/
structure Report where
  kind : String
  message : String
  place : Option String
  help : Option String

namespace Report

/-- A character that ends a line of a drawn source. -/
def isLineEnd (c : Char) : Bool :=
  ['\n', '\r', '\x0b', '\x0c', '\u0085', '\u2028', '\u2029'].contains c

/-- The lines of a text with their terminators; a carriage return and the line feed after it are
one terminator. -/
def lines : List Char → List (List Char)
  | [] => []
  | '\r' :: '\n' :: cs => ['\r', '\n'] :: lines cs
  | c :: cs =>
    if isLineEnd c then [c] :: lines cs
    else
      match lines cs with
      | [] => [[c]]
      | l :: ls => (c :: l) :: ls

/-- What a report has to know of a source: how many characters it has, and its lines. -/
structure Sheet where
  length : Nat
  lineLengths : List Nat

/-- The sheet of a source. -/
def Sheet.ofSource (source : String) : Sheet :=
  ⟨source.length, (lines source.toList).map List.length⟩

/-- The place of a character offset in lines with the given lengths, the first of which has number
`line`. An offset past the end lies on the last line. -/
def locateFrom (line offset : Nat) : List Nat → Location
  | l :: next :: ls =>
    if offset < l then ⟨line, offset + 1⟩
    else locateFrom (line + 1) (offset - l) (next :: ls)
  | _ => ⟨line, offset + 1⟩

/-- The place of a character offset, if the offset is not past the end. -/
def Sheet.locate? (sheet : Sheet) (offset : Nat) : Option Location :=
  if offset ≤ sheet.length then some (locateFrom 1 offset sheet.lineLengths) else none

/-- Whether a label can be drawn: the source is not empty, and the label starts and ends in it. -/
def Sheet.draws (sheet : Sheet) (label : Label) : Bool :=
  let start := label.span.start.toNat
  let stop := label.span.stop.toNat
  sheet.length != 0 && start ≤ sheet.length && (stop ≤ start || stop - 1 ≤ sheet.length)

/-- What kind of problem a report is about. -/
def kindOf (d : Diagnostic) : String :=
  match d.code with
  | some code => "[" ++ code.text ++ "] Error:"
  | none => "Error:"

/-- The report on a diagnostic of the source of a sheet, which has the given name. -/
def onSheet (sheet : Sheet) (name : String) (d : Diagnostic) : Report :=
  if d.labels.any sheet.draws then
    let place := match sheet.locate? d.position with
      | some location => location.describe
      | none => "?:?"
    ⟨kindOf d, d.message, some (name ++ ":" ++ place), d.help⟩
  else
    ⟨kindOf d, d.message, none, none⟩

/-- The report on a diagnostic of a source with the given name. -/
def ofDiagnostic (source name : String) (d : Diagnostic) : Report :=
  onSheet (Sheet.ofSource source) name d

/-- The first line of a report. -/
def header (r : Report) : String :=
  r.kind ++ " " ++ r.message

/-- A text in the colour of problems. -/
def red (text : String) : String :=
  "\x1b[31m" ++ text ++ "\x1b[0m"

/-- A text in the colour of the frame around a drawn source. -/
def grey (text : String) : String :=
  "\x1b[38;5;246m" ++ text ++ "\x1b[0m"

/-- The lines of a report above its drawn source, in colour. -/
def heading (r : Report) : String :=
  red r.kind ++ " " ++ r.message
    ++ match r.place with
      | some place => "\n   " ++ grey "╭" ++ grey "─" ++ grey "[" ++ place ++ grey "]"
      | none => ""

/-- The headings of the reports on several diagnostics of a source. -/
def headings (source name : String) (ds : List Diagnostic) : List String :=
  let sheet := Sheet.ofSource source
  ds.map fun d => (onSheet sheet name d).heading

end Report

end QLisp
