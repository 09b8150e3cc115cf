/-!
# Log filters

A filter says how much of what happens is recorded. It is written as directives with commas between
them: a level for everything, a target with a level, or a target alone, for which everything is
recorded. A directive with a target holds for all places whose names start with it. The directive
with the longest target counts, and of two with the same target the later one. A filter without
directives lets errors through.

Directives with a part in square brackets are about nested activities. There are none here, so such
a directive lets nothing through.
-/

set_option autoImplicit false

namespace QLisp.Command

/-- How much is recorded; a greater level includes the lesser ones. -/
inductive LogLevel where
  | off
  | error
  | warn
  | info
  | debug
  | trace
deriving DecidableEq

namespace LogLevel

/-- The place of a level in the order of levels. -/
def rank : LogLevel → Nat
  | off => 0
  | error => 1
  | warn => 2
  | info => 3
  | debug => 4
  | trace => 5

/-- The level that a word or a digit names, in upper or lower case. -/
def ofText? (text : String) : Option LogLevel :=
  match text.map Char.toLower with
  | "off" | "0" => some off
  | "error" | "1" => some error
  | "warn" | "2" => some warn
  | "info" | "3" => some info
  | "debug" | "4" => some debug
  | "trace" | "5" => some trace
  | _ => none

end LogLevel

/-- A level for the places whose names start with a target. -/
structure LogDirective where
  target : String
  level : LogLevel
deriving DecidableEq

namespace LogDirective

/-- A character of a target. -/
def isTargetChar (c : Char) : Bool :=
  c.isAlphanum || c == '_' || c == ':' || c == '-'

/-- Reads a directive. The empty target stands for all places. -/
def read? (text : String) : Option LogDirective :=
  match LogLevel.ofText? text with
  | some level => some ⟨"", level⟩
  | none =>
    let target := text.toList.takeWhile isTargetChar
    match target, text.toList.dropWhile isTargetChar with
    | [], _ => none
    | _, [] => some ⟨String.ofList target, .trace⟩
    | _, ['='] => some ⟨String.ofList target, .trace⟩
    | _, '=' :: level =>
      (LogLevel.ofText? (String.ofList level)).map fun level => ⟨String.ofList target, level⟩
    | _, _ => none

end LogDirective

/-- The directives of a filter. -/
abbrev LogFilter : Type :=
  List LogDirective

namespace LogFilter

/-- Reads the directives of a filter; there are none of those in brackets. -/
def readAll : List String → Option LogFilter
  | [] => some []
  | text :: rest =>
    if text.contains '[' then readAll rest
    else do return (← LogDirective.read? text) :: (← readAll rest)

/-- Reads a filter. -/
def read? (text : String) : Option LogFilter :=
  match (text.splitOn ",").filter (!·.isEmpty) with
  | [] => some [⟨"", .error⟩]
  | texts => readAll texts

/-- The later of two directives for a place, unless the earlier one has a longer target. -/
def prefer (place : String) (earlier : Option LogDirective) (later : LogDirective) :
    Option LogDirective :=
  if !place.startsWith later.target then earlier
  else
    match earlier with
    | none => some later
    | some d => if later.target.length < d.target.length then some d else some later

/-- Whether a filter lets what has a level at a place through. -/
def allows (filter : LogFilter) (place : String) (level : LogLevel) : Bool :=
  match filter.foldl (prefer place) none with
  | none => false
  | some d => level.rank ≤ d.level.rank

end LogFilter

end QLisp.Command
