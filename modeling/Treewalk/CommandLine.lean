/-
  The command line.

  * `Command.parse` reads the arguments;
  * `Command.answer` is what the command answers, given how files are read.
-/
import Treewalk.Session
import Treewalk.Tree.Decode

namespace Treewalk

/-- What is to be run, and how. -/
structure Command where
  entry : String := "start"
  dumpState : Bool := false
  path : String := ""
  /-- the arguments of the program itself -/
  args : List String := []

/-- What reading a file gives. -/
inductive FileContent where
  | text (content : String)
  | missing
  | unreadable (reason : String)

/-- What a command answers. -/
structure Answer where
  code : UInt8
  output : ByteArray := .empty
  /-- the text on the error stream -/
  errors : String := ""

namespace Command

/-- A reason why arguments cannot be used. -/
inductive Misuse where
  | help
  | entryWithoutName
  | noPath

/-- The options, up to the first argument that is none: the path. All after
    it belongs to the program. -/
def parse (c : Command) : List String → Except Misuse Command
  | [] => .error .noPath
  | "--entry" :: name :: rest => parse { c with entry := name } rest
  | ["--entry"] => .error .entryWithoutName
  | "--dump-state" :: rest => parse { c with dumpState := true } rest
  | "--help" :: _ => .error .help
  | "-h" :: _ => .error .help
  | path :: args => .ok { c with path, args }

/-- How the command is used. -/
def usage (name : String) : String :=
  s!"Usage: {name} [--entry NAME] [--dump-state] <program.json> [args...]\n" ++
  "\n" ++
  "Options:\n" ++
  "  --entry NAME    function to run (default: start)\n" ++
  "  --dump-state    print the execution state when the program faults\n" ++
  "\n" ++
  "Set RUST_LOG=jodin_exec=debug to trace calls.\n"

/-- What is said before the usage. -/
def Misuse.text : Misuse → String
  | help => ""
  | entryWithoutName => "Error: --entry needs a function name\n"
  | noPath => "Error: No program file provided\n\n"

/-- The answer of a command that fails before the program runs. -/
def refusal (errors : String) : Answer :=
  { code := 1, errors }

/-- The engine of a command for a program. -/
def engine (c : Command) (program : Program) : Engine :=
  { program, entry := c.entry, dumpState := c.dumpState }

/-- Run a program. Its first argument is the path it came from. -/
def runProgram (c : Command) (program : Program) : Answer :=
  match (Session.fresh (c.engine program)).setUp with
  | (.ok (), s) =>
    let (run, s) := s.run (c.path :: c.args)
    { code := run.status.toUInt32.toUInt8
      output := s.machine.output
      errors := run.report.elim "" (· ++ "\n") }
  | (.error (.fault f), s) =>
    { refusal ("Error: " ++ f.message ++ "\n") with output := s.machine.output }
  | (.error .exhausted, s) => { refusal "" with output := s.machine.output }

/-- Run what a file holds. -/
def runFile (c : Command) : FileContent → Answer
  | .missing => refusal ("Error: File '" ++ c.path ++ "' not found\n")
  | .unreadable reason => refusal ("Error: Cannot read '" ++ c.path ++ "': " ++ reason ++ "\n")
  | .text content =>
    match Program.parse? content with
    | none => refusal "Error: Invalid program tree: the text is not a program\n"
    | some program => c.runProgram program

/-- What the command of the given name answers. -/
def answer {m : Type → Type} [Monad m] (name : String) (args : List String)
    (readFile : String → m FileContent) : m Answer :=
  match parse {} args with
  | .error misuse => return refusal (misuse.text ++ usage name)
  | .ok c => return c.runFile (← readFile c.path)

end Command

end Treewalk
