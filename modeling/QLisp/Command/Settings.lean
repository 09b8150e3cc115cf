import QLisp.Command.Arguments
import QLisp.Command.LogFilter

/-!
# Settings

The settings of a run come from the flags; variables of the environment fill in what the flags leave
open. A variable that is empty counts as not set.
-/

set_option autoImplicit false

namespace QLisp.Command

/-- Which prelude a run starts with. -/
inductive PreludeChoice where
  | bundled
  | file (path : String)
  | disabled
deriving DecidableEq

/-- What holds for a whole run. -/
structure Settings where
  verbose : Bool
  quiet : Bool
  prelude : PreludeChoice
  history : Option String
  /-- What is recorded. -/
  filter : LogFilter
  /-- Whether the line loop writes prompts although nobody types its lines. -/
  prompts : Bool
deriving DecidableEq

namespace Settings

/-- The variable that names the file of the prelude. -/
def preludeVariable : String :=
  "LISPY_PRELUDE"

/-- The variable that names the file of the history. -/
def historyVariable : String :=
  "LISPY_HISTORY"

/-- The variable that holds a filter for what is recorded. -/
def filterVariable : String :=
  "LISPY_LOG"

/-- The variable that names the kind of terminal. -/
def terminalVariable : String :=
  "TERM"

/-- All variables that settings depend on. -/
def allVariables : List String :=
  [preludeVariable, historyVariable, terminalVariable, filterVariable]

/-- The kinds of terminal on which a line cannot be edited; each line is read there as it comes,
after a prompt. -/
def plainTerminals : List String :=
  ["dumb", "cons25", "emacs"]

/-- The value of a variable that is set and not empty. -/
def nonempty (getVariable : String → Option String) (name : String) : Option String :=
  (getVariable name).filter (!·.isEmpty)

/-- The filter for what is recorded. Without one that can be read, a verbose run records more. -/
def filterFor (verbose : Bool) (getVariable : String → Option String) : LogFilter :=
  match (getVariable filterVariable).bind LogFilter.read? with
  | some filter => filter
  | none => [⟨"", if verbose then .debug else .warn⟩]

/-- The settings for flags and variables. Doing without a prelude comes before a prelude named by a
flag, which comes before one named by a variable. -/
def resolve (flags : Flags) (getVariable : String → Option String) : Settings where
  verbose := flags.verbose
  quiet := flags.quiet
  prelude :=
    if flags.noPrelude then .disabled
    else
      match flags.prelude.or (nonempty getVariable preludeVariable) with
      | some path => .file path
      | none => .bundled
  history := nonempty getVariable historyVariable
  filter := filterFor flags.verbose getVariable
  prompts := (getVariable terminalVariable).any fun name =>
    plainTerminals.contains (name.map Char.toLower)

end Settings

end QLisp.Command
