import QLisp.Command.Run

/-!
# The program

Runs the command line and carries out what the run describes. A run is a function of the files it
reads and of its input, so it is repeated with one more file, or with the input, each time it asks
for what was not read yet; only the last run has effects.
-/

set_option autoImplicit false

namespace QLisp

/-- What was read so far: files by path, and the input of the run. -/
structure Known where
  files : List (String × ReadResult) := []
  input : Option ByteArray := none

/-- The wording of an error of the file system. -/
def wordingOf : IO.Error → String
  | .noFileOrDirectory .. => Command.FileFault.missing.message
  | .inappropriateType _ code _ =>
    if code = 21 || code = -21 then Command.FileFault.isDirectory.message
    else Command.FileFault.notDirectory.message
  | .invalidArgument _ code _ =>
    if code = 36 || code = -36 then Command.FileFault.nameTooLong.message
    else "Invalid argument (os error 22)"
  | e => toString e

/-- What reading a file of the file system gives. -/
def readScriptFile (path : String) : IO ReadResult := do
  try
    return Command.readBytes (← IO.FS.readBinFile path)
  catch e => return .error (wordingOf e)

/-- Whether a path leads to the input of the run. -/
def leadsToInput (path : String) : Bool :=
  match (⟨[]⟩ : Command.Directory).script path with
  | .input => path.startsWith "/"
  | .file _ => false

/-- Runs a command line, reading files and the input as the run asks for them. -/
partial def runReading (args : List String) (getVariable : String → Option String)
    (known : Known) : IO Command.Transcript := do
  let host : Host := fun path =>
    if leadsToInput path then .input
    else
      match known.files.find? (·.1 == path) with
      | some (_, reading) => .file reading
      | none => .file (.error Command.FileFault.missing.message)
  let input := (known.input.getD ByteArray.empty).toList
  let transcript := Command.run { args, getVariable, host, input }
  let isUnknown (path : String) : Bool :=
    if leadsToInput path then known.input.isNone else known.files.all (·.1 != path)
  match transcript.requests.find? isUnknown with
  | none => return transcript
  | some path =>
    if leadsToInput path then
      let input ← (← IO.getStdin).readBinToEnd
      runReading args getVariable { known with input := some input }
    else
      let reading ← readScriptFile path
      runReading args getVariable { known with files := (path, reading) :: known.files }

/-- Saves the lines of a history. -/
def saveHistory (path : String) (lines : List String) : IO (Except String Unit) := do
  try
    IO.FS.writeFile path ("\n".intercalate lines ++ "\n")
    return .ok ()
  catch e => return .error (wordingOf e)

end QLisp

open QLisp in
/-- Runs the command line given by the arguments. -/
def main (args : List String) : IO UInt32 := do
  let known ← Command.Settings.allVariables.filterMapM fun name => do
    return (← IO.getEnv name).map fun value => (name, value)
  let getVariable (name : String) : Option String :=
    (known.find? (·.1 == name)).map (·.2)
  let input ← match Command.Invocation.read args with
    | .ok ⟨.repl, _⟩ => pure (some (← (← IO.getStdin).readBinToEnd))
    | _ => pure none
  let transcript ← runReading args getVariable { input }
  let transcript ← match transcript.history with
    | some (path, lines) => pure (transcript.afterSaving (← saveHistory path lines))
    | none => pure transcript
  IO.print transcript.output
  for notice in transcript.notices do
    IO.eprintln notice
  return transcript.exit.toUInt32
