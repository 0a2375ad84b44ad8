import LoxCalc.Session

/-!
# Arguments

The arguments of the command: the option `--ast`, which shows trees in place of values, and the name
of a file. An argument `--` ends the options. A wish for help, and the first argument that makes no
sense, end the command before it starts.
-/

namespace LoxCalc.CommandLine

/-- What the command is asked to do. Without a file it reads lines from a prompt. -/
structure Arguments where
  mode : Mode
  file? : Option String

/-- Why arguments make no sense. -/
inductive UsageFault
  | unknownOption (arg : String)
  | repeatedOption (arg : String)
  | secondFile (arg : String)
  | emptyFile
  deriving DecidableEq

/-- The wording of a usage fault. -/
def UsageFault.message : UsageFault → String
  | unknownOption arg => "unexpected argument '" ++ arg ++ "' found"
  | repeatedOption arg => "the argument '" ++ arg ++ "' cannot be used multiple times"
  | secondFile arg => "unexpected argument '" ++ arg ++ "' found"
  | emptyFile => "a value is required for '[FILE]' but none was supplied"

/-- What ends the command before it starts. -/
inductive Interruption
  | help
  | misuse (fault : UsageFault)
  deriving DecidableEq

namespace Arguments

/-- The arguments of a command that is called without any. -/
def empty : Arguments := ⟨.value, none⟩

/-- Takes the name of the file, of which there is at most one. -/
def addFile (a : Arguments) (name : String) : Except Interruption Arguments :=
  if name.isEmpty then .error (.misuse .emptyFile)
  else if a.file?.isSome then .error (.misuse (.secondFile name))
  else .ok { a with file? := some name }

/-- Whether an argument is written like an option. A lone dash is a name. -/
def isOption (arg : String) : Bool :=
  match arg.toList with
  | '-' :: _ :: _ => true
  | _ => false

/-- Whether an argument asks for help: by its name, or by its letter, behind which nothing counts.
-/
def asksForHelp (arg : String) : Bool :=
  match arg.toList with
  | '-' :: 'h' :: _ => true
  | _ => arg = "--help"

/-- Takes arguments from left to right on top of those taken already. -/
def addAll (a : Arguments) : List String → Except Interruption Arguments
  | [] => .ok a
  | arg :: rest =>
    if arg = "--" then rest.foldlM addFile a
    else if arg = "--ast" then
      if a.mode = .tree then .error (.misuse (.repeatedOption arg))
      else addAll { a with mode := .tree } rest
    else if asksForHelp arg then .error .help
    else if isOption arg then .error (.misuse (.unknownOption arg))
    else
      match a.addFile arg with
      | .error interruption => .error interruption
      | .ok a => addAll a rest

/-- The meaning of a list of arguments. -/
def ofList (args : List String) : Except Interruption Arguments := empty.addAll args

end Arguments

end LoxCalc.CommandLine
