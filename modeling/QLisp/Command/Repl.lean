import QLisp.Command.Input
import QLisp.Diagnostic.Report
import QLisp.Session
import QLisp.Text.Backspace
import QLisp.Text.Blank

/-!
# The line loop

Each line of input is answered before the next one is read, in one scope for the whole conversation.
Backspaces in a line have had their effect before it is looked at. Blank lines are passed over, a
line that starts with a colon is a command of the loop, and any other line is read and evaluated as
one S-expression. No failing line ends the conversation; it ends with the input, at `:quit`, or at a
line that is no text.

There is one answer for every attempt to read a line, also for those that bring nothing, because a
prompt is written before each attempt where prompts are wanted.

The lines come in blocks. A line that reads the input itself takes what the loop has not taken, and
the conversation goes on with the rest of the last block alone.
-/

set_option autoImplicit false

namespace QLisp.Command.Repl

/-- A line of input by what it asks for. -/
inductive Line where
  | blank
  | quit
  | help
  | bindings
  | unknown (command : String)
  | source (text : String)
deriving DecidableEq

/-- Tells lines apart; blanks at the ends do not count. -/
def Line.classify (line : List Char) : Line :=
  match Text.trim line with
  | [] => blank
  | ':' :: cs =>
    match String.ofList (':' :: cs) with
    | ":quit" => quit
    | ":q" => quit
    | ":help" => help
    | ":h" => help
    | ":env" => bindings
    | command => unknown command
  | cs => source (String.ofList cs)

/-- What is written in answer to a line: lines of output, notices apart from it, and what can be
recorded besides. -/
structure Response where
  output : List String := []
  notices : List String := []
  records : List String := []

/-- The answer that writes nothing. -/
def Response.silent : Response := {}

/-- The lines before the conversation. -/
def banner : List String :=
  ["Lispy Version 0.1.0", "Type :help for help, :quit to exit", ""]

/-- The answer to the help command. -/
def helpLines : List String :=
  ["Commands:",
   "  :help, :h    Show this help",
   "  :quit, :q    Exit the REPL",
   "  :env         Show current bindings"]

/-- The text before each line of input. -/
def prompt : String :=
  "lispy> "

/-- The line that shows an outcome. -/
def outcomeLine : Except EvalError Value → String
  | .ok v => v.render
  | .error e => "Error: " ++ e.message

/-- What is recorded of an outcome. -/
def outcomeRecords : Except EvalError Value → List String
  | .ok v => ["repl result=" ++ v.render]
  | .error _ => []

/-- The name of a source line in reports. -/
def sourceName : String :=
  "<repl>"

/-- Evaluates a source line: what it prints, then its outcome. -/
def evaluateLine (host : Host) (scope : Scope) (m : Machine) (source : String) :
    Option (Response × Machine) :=
  match Program.parse source with
  | .error problem =>
    let reports := Report.headings source sourceName (SourceFile.ofSource source).2
    some (⟨["Error: " ++ problem.message], reports, []⟩, m)
  | .ok program =>
    (Interpreter.evaluate scope program host { m with printed := #[] }).map
      fun (outcome, m') =>
        (⟨m'.printed.toList ++ [outcomeLine outcome], [], outcomeRecords outcome⟩, m')

/-- How a conversation ends. -/
inductive Ending where
  | endOfInput
  | quit
  | notText
  /-- The evaluation of a line has no answer: it goes too deep, or a scale cannot be kept. -/
  | tooDeep
  /-- The backspaces of a line cannot have their effect. -/
  | notEditable
deriving DecidableEq

/-- A conversation: the answers to its lines in order, the machine after it and how it ended. -/
structure Conversation where
  responses : List Response
  machine : Machine
  ending : Ending
  /-- The lines that were not blank. -/
  history : List String

namespace Conversation

/-- A conversation that ends with one last answer. -/
def last (r : Response) (m : Machine) (ending : Ending) : Conversation :=
  ⟨[r], m, ending, []⟩

/-- A conversation with one more answer in front. -/
def answer (c : Conversation) (r : Response) : Conversation :=
  { c with responses := r :: c.responses }

/-- A conversation with one more line in front of its history, without the blanks at its ends. -/
def remember (c : Conversation) (line : List Char) : Conversation :=
  { c with history := String.ofList (Text.trim line) :: c.history }

/-- A conversation that goes on where its lines came to an end; it was not the end of the input. -/
def continued (c : Conversation) (next : Machine → Conversation) : Conversation :=
  match c.ending with
  | .endOfInput =>
    let d := next c.machine
    { d with responses := c.responses.dropLast ++ d.responses, history := c.history ++ d.history }
  | _ => c

end Conversation

/-- Answers lines one after the other; a line that is no text is given as nothing. -/
def converse (host : Host) (scope : Scope) (m : Machine) : List (Option String) → Conversation
  | [] => .last .silent m .endOfInput
  | none :: _ => .last .silent m .notText
  | some line :: rest =>
    match Text.edit line.toList with
    | none => .last .silent m .notEditable
    | some line =>
      match Line.classify line with
      | .blank => (converse host scope m rest).answer .silent
      | .quit => (Conversation.last .silent m .quit).remember line
      | .help => ((converse host scope m rest).answer ⟨helpLines, [], []⟩).remember line
      | .bindings =>
        let names := (m.store.names scope).map ("  " ++ ·)
        ((converse host scope m rest).answer ⟨names, [], []⟩).remember line
      | .unknown command =>
        let warning := "warning: unknown command: " ++ command
        ((converse host scope m rest).answer ⟨[], [warning], []⟩).remember line
      | .source source =>
        match evaluateLine host scope m source with
        | none => (Conversation.last .silent m .tooDeep).remember line
        | some (response, m') => ((converse host scope m' rest).answer response).remember line

/-- Answers the lines of one block after the other. Where nothing is left of the input after a
block, the line that it has begun is the last one. -/
def converseInBlocks (host : Host) (scope : Scope) (m : Machine) : List Block → Conversation
  | [] => converse host scope m []
  | block :: blocks =>
    let unread := readBytes block.unread.toByteArray
    (converse host scope { m with input := unread } block.lines).continued fun m =>
      if m.input.isSome then converseInBlocks host scope m blocks
      else converse host scope m block.begun

end QLisp.Command.Repl
