import LoxCalc.CommandLine.Arguments
import LoxCalc.CommandLine.Prompt

/-!
# Running the command

The command as a function of its arguments, the files it can read and its input.
-/

namespace LoxCalc.CommandLine

/-- How the command is called. -/
def usage : String := "Usage: treelox [OPTIONS] [FILE]\n"

/-- What the command does, and what its arguments mean. -/
def helpText : String :=
  "Evaluates a Lox expression from a file, or line by line from a prompt\n\n" ++ usage ++
    "\nArguments:\n  [FILE]  File containing a single expression. Starts a prompt if omitted\n" ++
    "\nOptions:\n      --ast   Print the syntax tree instead of evaluating it\n" ++
    "  -h, --help  Print help\n"

/-- The outcome of a command that does not start. -/
def interrupted : Interruption → Outcome
  | .help => ⟨0, helpText, ""⟩
  | .misuse fault => ⟨2, "", "error: " ++ fault.message ++ "\n\n" ++ usage ++
      "\nFor more information, try '--help'.\n"⟩

/-- The outcome for a file that cannot be read. -/
def unreadable (path : String) (fault : ReadFault) : Outcome :=
  ⟨1, "", "Error: Could not read " ++ path ++ "\n\nCaused by:\n    " ++ fault.message ++ "\n"⟩

/-- Runs the text of a file as one source. The issues are taken out for printing before the exit
code is asked for. -/
def runText (d : Dialect) (mode : Mode) (text : String) : Outcome :=
  let (shown, s) := (Session.start d).run mode text
  let (issues, s) := s.take
  ⟨s.report.exitCode, shown, printed issues⟩

/-- Runs a file that was read, or says why it could not be. -/
def runFile (d : Dialect) (mode : Mode) (path : String) (content : Except ReadFault ByteArray) :
    Outcome :=
  match content.bind decode with
  | .error fault => unreadable path fault
  | .ok text => runText d mode text

/-- Runs the command. -/
def run (d : Dialect) (args : List String) (folder : Folder) (input : ByteArray) : Outcome :=
  match Arguments.ofList args with
  | .error interruption => interrupted interruption
  | .ok ⟨mode, some path⟩ => runFile d mode path (folder.read (.root input) path)
  | .ok ⟨mode, none⟩ => Prompt.run d mode input

end LoxCalc.CommandLine
