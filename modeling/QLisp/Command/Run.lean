import QLisp.Command.Directory
import QLisp.Command.Repl
import QLisp.Command.Settings

/-!
# Running a command line

A run is a function of the arguments, the variables of the environment, the files it reads and its
input. What it does to the world is described, not done: the text it writes, the
notices it gives, the history it would save, its exit code, and the paths of the files it read.
-/

set_option autoImplicit false

namespace QLisp.Command

/-- What a run depends on. -/
structure World where
  args : List String
  getVariable : String → Option String
  host : Host
  input : List UInt8

/-- What a run does. -/
structure Transcript where
  exit : Nat
  output : String
  notices : List String
  /-- The file and the lines of the history to save, if there are any. -/
  history : Option (String × List String)
  /-- The paths of the files asked for. -/
  requests : List String

/-- Lines as one text, with a line feed after each. -/
def unlines (lines : List String) : String :=
  String.join (lines.map (· ++ "\n"))

namespace Transcript

/-- The exit code of a run that did what was asked. -/
def success : Nat := 0

/-- The exit code of a run that failed. -/
def failure : Nat := 1

/-- The exit code of a command line that cannot be understood. -/
def misuse : Nat := 2

/-- The exit code of a run that breaks off, because a scale cannot be kept or a line cannot be
edited. -/
def brokenOff : Nat := 101

/-- A run that does nothing but write lines and end. -/
def plain (exit : Nat) (lines : List String) : Transcript :=
  ⟨exit, unlines lines, [], none, []⟩

/-- A transcript after the history was saved, or could not be saved for the given reason. -/
def afterSaving (t : Transcript) (saving : Except String Unit) : Transcript :=
  match t.history, saving with
  | some (path, _), .error reason =>
    { t with notices :=
        t.notices ++ ["warning: cannot save history to '" ++ path ++ "': " ++ reason] }
  | _, _ => t

end Transcript

/-- An error with its code. -/
def describe (e : EvalError) : String :=
  "[" ++ e.code.text ++ "] " ++ e.message

/-- The stages of a run: a stage ends with a result or with the message of a failure, and leaves a
machine; it gives nothing if it breaks off. -/
abbrev Staged (α : Type) : Type :=
  Option (Except String α × Machine)

/-- A computation as a stage, its error put in words. -/
def stage {α : Type} (inWords : EvalError → String) (x : Interp α) (host : Host) (m : Machine) :
    Staged α :=
  (x host m).map fun (outcome, m') => (outcome.mapError inWords, m')

/-- The text of a file, or the message of a failure. -/
def readFile (inWords : String → String) (path : String) (host : Host) (m : Machine) :
    Staged String :=
  let (reading, input) := host.read path m.input
  some (reading.mapError inWords, { m with requests := m.requests.push path, input })

/-- One stage after the other. -/
def andThen {α β : Type} (x : Staged α) (f : α → Machine → Staged β) : Staged β :=
  match x with
  | none => none
  | some (.error message, m) => some (.error message, m)
  | some (.ok a, m) => f a m

/-- Runs the chosen prelude. -/
def loadPrelude (choice : PreludeChoice) (host : Host) (scope : Scope) (m : Machine) :
    Staged Unit :=
  match choice with
  | .disabled => some (.ok (), m)
  | .bundled =>
    stage (fun e => "could not load prelude: " ++ e.message) (Prelude.load scope) host m
  | .file path =>
    andThen (readFile (fun reason => "cannot read prelude '" ++ path ++ "': " ++ reason) path
        host m) fun source m =>
      stage (fun e => "could not load prelude '" ++ path ++ "': " ++ e.message)
        (Prelude.loadSource scope source) host m

/-- A notice for a verbose run. -/
def verboseNotice (settings : Settings) (text : String) : List String :=
  if settings.verbose then ["info: " ++ text] else []

/-- The transcript of stages that ended, with the notices given before their end. -/
def conclude (settings : Settings) (notices : List String) : Staged Unit → Transcript
  | none => .plain Transcript.brokenOff []
  | some (.ok (), m) =>
    ⟨Transcript.success, unlines m.printed.toList, notices, none, m.requests.toList⟩
  | some (.error message, m) =>
    let last := if settings.quiet then [] else ["error: " ++ message]
    ⟨Transcript.failure, unlines m.printed.toList, notices ++ last, none, m.requests.toList⟩

/-- The reports on the problems in a source with the given name. -/
def reports (name source : String) : List String :=
  Report.headings source name (SourceFile.ofSource source).2

/-- The name of an expression in reports. -/
def expressionName : String :=
  "<eval>"

/-- A machine with the builtins whose input is given in bytes, and its root scope. -/
def machineReading (input : List UInt8) : Machine × Scope :=
  let (machine, root) := Machine.withBuiltins
  ({ machine with input := readBytes input.toByteArray }, root)

/-- Evaluates an expression and writes its value. -/
def runEval (settings : Settings) (world : World) (expression : String) : Transcript :=
  let (machine, root) := machineReading world.input
  match Program.parse expression with
  | .error problem =>
    conclude settings (reports expressionName expression) (some (.error problem.message, machine))
  | .ok program =>
    let notices := verboseNotice settings ("expression: " ++ program.render)
    conclude settings notices <|
      andThen (loadPrelude settings.prelude world.host root machine) fun _ m =>
      andThen (stage describe (Interpreter.evaluate root program) world.host m) fun v m =>
      some (.ok (), { m with printed := m.printed.push v.render })

/-- The number of top-level forms of a program. -/
def formCount : Value → Nat
  | .sexpr forms => forms.length
  | _ => 1

/-- Runs a script. -/
def runScript (settings : Settings) (world : World) (path : String) : Transcript :=
  let (machine, root) := machineReading world.input
  let inWords (reason : String) : String := "cannot read file '" ++ path ++ "': " ++ reason
  match readFile inWords path world.host machine with
  | none => conclude settings [] none
  | some (.error message, m) => conclude settings [] (some (.error message, m))
  | some (.ok source, m) =>
    match Program.parse source with
    | .error problem =>
      conclude settings (reports path source) (some (.error problem.message, m))
    | .ok program =>
      match loadPrelude settings.prelude world.host root m with
      | some (.ok (), m) =>
        let notices := verboseNotice settings
          ("running " ++ (formCount program).repr ++ " top-level forms")
        conclude settings notices <|
          andThen (stage describe (Interpreter.run root program) world.host m) fun _ m =>
          some (.ok (), m)
      | stopped => conclude settings [] stopped

/-- The notice at the end of a conversation. -/
def endingNotice : Repl.Ending → List String
  | .notText => ["Error: " ++ FileFault.invalidText.message]
  | _ => []

/-- The exit code after a conversation. -/
def exitAfter : Repl.Ending → Nat
  | .tooDeep | .notEditable => Transcript.brokenOff
  | _ => Transcript.success

/-- The text of an answer, with the prompt before it where prompts are wanted. -/
def answerText (settings : Settings) (r : Repl.Response) : String :=
  (if settings.prompts then Repl.prompt else "") ++ unlines r.output

/-- The name of the place where answers are recorded. -/
def recordPlace : String :=
  "lispy"

/-- The notices of an answer, with its records as far as the filter lets them through. -/
def answerNotices (settings : Settings) (r : Repl.Response) : List String :=
  (if settings.filter.allows recordPlace .debug then r.records.map ("debug: " ++ ·) else [])
    ++ r.notices

/-- What is left of the input after the history was read, which may come from there. -/
def inputAfterHistory (settings : Settings) (world : World) : List UInt8 :=
  match settings.history.map world.host with
  | some .input => afterReadingLines world.input
  | _ => world.input

/-- Holds a conversation. -/
def runRepl (settings : Settings) (world : World) : Transcript :=
  let input := inputAfterHistory settings world
  let (machine, root) := machineReading input
  let start := { machine with printed := Repl.banner.toArray }
  match loadPrelude settings.prelude world.host root start with
  | some (.ok (), m) =>
    let blocks := if m.input.isSome then inputBlocks input else []
    let c := Repl.converseInBlocks world.host root m blocks
    { exit := exitAfter c.ending
      output := unlines m.printed.toList ++ String.join (c.responses.map (answerText settings))
      notices := c.responses.flatMap (answerNotices settings) ++ endingNotice c.ending
      history :=
        if exitAfter c.ending = Transcript.success && !c.history.isEmpty then
          settings.history.map fun path => (path, c.history)
        else none
      requests := c.machine.requests.toList }
  | stopped => conclude settings [] stopped

/-- The line that names the version. -/
def versionLine : String :=
  "lispy 0.1.0"

/-- How a command line is written. -/
def usageLines : List String :=
  ["Usage: lispy [-v] [-q] [--no-prelude] [--prelude FILE] [repl | run FILE | eval EXPR]"]

/-- Runs a command line. -/
def run (world : World) : Transcript :=
  match Invocation.read world.args with
  | .error .usage => .plain Transcript.misuse []
  | .error .version => .plain Transcript.success [versionLine]
  | .error .help => .plain Transcript.success usageLines
  | .ok invocation =>
    let settings := Settings.resolve invocation.flags world.getVariable
    match invocation.action with
    | .repl => runRepl settings world
    | .run file => runScript settings world file
    | .eval expression => runEval settings world expression

/-- Runs a command line in a working directory that holds the given files. -/
def runIn (files : List (String × ByteArray)) (args : List String)
    (getVariable : String → Option String) (input : List UInt8) : Transcript :=
  let directory : Directory := ⟨files⟩
  let t := run { args, getVariable, host := directory.script, input }
  match t.history with
  | some (path, _) => t.afterSaving ((directory.tryWrite path).mapError FileFault.message)
  | none => t

end QLisp.Command
