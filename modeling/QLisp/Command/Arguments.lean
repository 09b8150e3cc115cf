/-!
# Command line arguments

A command line is a command with its argument, and flags before or after it. A flag may be given
once before the command and once after it; for a flag with a value the later one counts. Short flags
can be written together. After `--` nothing is a flag.

A command line that does not follow these rules is a usage error. Arguments are read from left to
right, and the first one that asks for the version or for help, or that does not fit, ends the
reading where it stands. Only the value of a flag in an argument of its own is looked at later, with
the argument after it, and if that is the command, after the arguments of the command.
-/

set_option autoImplicit false

namespace QLisp.Command

/-- What a command line asks for. -/
inductive Action where
  | repl
  | run (file : String)
  | eval (expression : String)
deriving DecidableEq

/-- The flags of a command line. -/
structure Flags where
  verbose : Bool := false
  quiet : Bool := false
  noPrelude : Bool := false
  prelude : Option String := none
deriving DecidableEq

/-- A command line that was read. -/
structure Invocation where
  action : Action
  flags : Flags
deriving DecidableEq

/-- Why a command line leads to no command. -/
inductive Stop where
  | usage
  | version
  | help
deriving DecidableEq

/-- The name of a command. -/
inductive CommandName where
  | repl
  | run
  | eval
  | help
deriving DecidableEq

/-- The command with a name. -/
def CommandName.ofText? : String → Option CommandName
  | "repl" => some repl
  | "run" => some run
  | "eval" => some eval
  | "help" => some help
  | _ => none

/-- The place of an argument: before the command or after it. -/
inductive Level where
  | outer
  | inner (command : CommandName)
deriving DecidableEq

/-- An argument by its form. -/
inductive Argument where
  | separator
  | long (name : String) (value : Option String)
  | short (letters : List Char)
  | plain (text : String)
deriving DecidableEq

/-- Tells the forms of arguments apart; a lone hyphen is a plain argument. -/
def Argument.classify (text : String) : Argument :=
  match text.toList with
  | ['-', '-'] => separator
  | '-' :: '-' :: cs =>
    match cs.dropWhile (· != '=') with
    | [] => long (String.ofList cs) none
    | _ :: value => long (String.ofList (cs.takeWhile (· != '='))) (some (String.ofList value))
  | '-' :: c :: cs => short (c :: cs)
  | _ => plain text

/-- Sets a flag that is not set yet. -/
def setOnce (isSet : Bool) (flags : Flags) : Except Stop Flags :=
  if isSet then .error .usage else .ok flags

namespace Flags

/-- Sets the flag with a long name. -/
def setLong (flags : Flags) (level : Level) : String → Except Stop Flags
  | "verbose" => setOnce flags.verbose { flags with verbose := true }
  | "quiet" => setOnce flags.quiet { flags with quiet := true }
  | "no-prelude" => setOnce flags.noPrelude { flags with noPrelude := true }
  | "help" => .error .help
  | "version" => .error (if level = .outer then .version else .usage)
  | _ => .error .usage

/-- Sets the flag with a short name. -/
def setShort (flags : Flags) (level : Level) : Char → Except Stop Flags
  | 'v' => flags.setLong level "verbose"
  | 'q' => flags.setLong level "quiet"
  | 'h' => flags.setLong level "help"
  | 'V' => flags.setLong level "version"
  | _ => .error .usage

/-- Sets several flags with short names from left to right. -/
def setShorts (flags : Flags) (level : Level) : List Char → Except Stop Flags
  | [] => .ok flags
  | c :: cs => do
    let next ← flags.setShort level c
    next.setShorts level cs

/-- Sets the file of the prelude, whose path may not be empty. -/
def setPrelude (flags : Flags) (path : String) : Except Stop Flags :=
  if path.isEmpty then .error .usage
  else setOnce flags.prelude.isSome { flags with prelude := some path }

/-- The flags from before the command together with those after it. -/
def merge (outer inner : Flags) : Flags where
  verbose := outer.verbose || inner.verbose
  quiet := outer.quiet || inner.quiet
  noPrelude := outer.noPrelude || inner.noPrelude
  prelude := inner.prelude.or outer.prelude

end Flags

/-- What was read of one level. -/
structure Reading where
  flags : Flags := {}
  /-- The file of a prelude that was not looked at yet. -/
  pending : Option String := none
  /-- The plain argument of a command. -/
  argument : Option String := none
  /-- The command, with the arguments after it. -/
  command : Option (CommandName × List String) := none

namespace Reading

/-- Looks at the file of a prelude that was not looked at yet. -/
def settle (r : Reading) : Except Stop Reading :=
  match r.pending with
  | none => .ok r
  | some path => do return { r with flags := ← r.flags.setPrelude path, pending := none }

/-- Takes a plain argument. A script has a path that is not empty, an expression can be any text,
and no command has two arguments. -/
def take (r : Reading) (level : Level) (text : String) : Except Stop Reading :=
  match level, r.argument with
  | .inner .run, none =>
    if text.isEmpty then .error .usage else .ok { r with argument := some text }
  | .inner .eval, none => .ok { r with argument := some text }
  | _, _ => .error .usage

/-- Takes several plain arguments. -/
def takeAll (r : Reading) (level : Level) : List String → Except Stop Reading
  | [] => .ok r
  | text :: rest => do (← r.take level text).takeAll level rest

end Reading

/-- Reads the arguments of one level. Before the command, the first plain argument is the command
and ends the level. -/
def readLevel (level : Level) (r : Reading) : List String → Except Stop Reading
  | [] => r.settle
  | arg :: rest =>
    match level, CommandName.ofText? arg with
    | .outer, some command => .ok { r with command := some (command, rest) }
    | _, _ => do
      let r ← r.settle
      match Argument.classify arg with
      | .separator => r.takeAll level rest
      | .plain text => readLevel level (← r.take level text) rest
      | .short letters =>
        readLevel level { r with flags := ← r.flags.setShorts level letters } rest
      | .long "prelude" (some path) =>
        readLevel level { r with flags := ← r.flags.setPrelude path } rest
      | .long "prelude" none =>
        match rest with
        | [] => .error .usage
        | value :: rest =>
          match Argument.classify value with
          | .plain path => readLevel level { r with pending := some path } rest
          | _ => .error .usage
      | .long name none => readLevel level { r with flags := ← r.flags.setLong level name } rest
      | .long _ (some _) => .error .usage

/-- What a request for help answers: help on all commands, or on the one command that is named. -/
def helpOn : List String → Stop
  | [] => .help
  | [name] => if (CommandName.ofText? name).isSome then .help else .usage
  | _ => .usage

/-- The action of a command with its argument. -/
def actionOf (command : CommandName) (argument : Option String) : Except Stop Action :=
  match command, argument with
  | .repl, none => .ok .repl
  | .run, some file => .ok (.run file)
  | .eval, some expression => .ok (.eval expression)
  | _, _ => .error .usage

/-- Reads a command line. Without a command it asks for the line loop. -/
def Invocation.read (args : List String) : Except Stop Invocation := do
  let outer ← readLevel .outer {} args
  match outer.command with
  | none => return ⟨.repl, outer.flags⟩
  | some (.help, names) => .error (helpOn names)
  | some (command, rest) =>
    let inner ← readLevel (.inner command) {} rest
    let action ← actionOf command inner.argument
    let outer ← outer.settle
    return ⟨action, outer.flags.merge inner.flags⟩

end QLisp.Command
