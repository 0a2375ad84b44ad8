import LoxCalc.CommandLine.Run

/-!
# The command

The command on real files and streams. All decisions are made elsewhere; here are only the reading
and the writing.
-/

namespace LoxCalc.CommandLine

/-- The fault behind a failed system call, whose code may come with a minus sign. -/
def ReadFault.ofError : IO.Error → ReadFault
  | .noFileOrDirectory .. => .notFound
  | .inappropriateType _ code _ =>
    if code = 21 ∨ code = -21 then .isDirectory else .notDirectory
  | .permissionDenied .. => .other "Permission denied" 13
  | .invalidArgument .. => .nameTooLong
  | e => .other (toString e) 5

/-- The bytes of a file. -/
def readFile (path : String) : IO (Except ReadFault ByteArray) := do
  try
    return .ok (← IO.FS.readBinFile path)
  catch e =>
    return .error (.ofError e)

/-- Writes an outcome. -/
def Outcome.emit (o : Outcome) : IO UInt32 := do
  IO.print o.stdout
  (← IO.getStdout).flush
  IO.eprint o.stderr
  return o.exit.toUInt32

/-- The bytes of the next line, which are none at the end of the input. -/
partial def readLine (input : IO.FS.Stream) (sofar : Array UInt8) : IO (List UInt8) := do
  let bytes ← input.read 1
  match bytes.data.toList with
  | [] => return sofar.toList
  | b :: _ => if b = 10 then return (sofar.push b).toList else readLine input (sofar.push b)

/-- The prompt on the streams of the process. -/
partial def interact (mode : Mode) (s : Session) : IO UInt32 := do
  IO.print Prompt.sign
  (← IO.getStdout).flush
  let line ← readLine (← IO.getStdin) #[]
  if line.isEmpty then return 0
  match Prompt.step mode s line with
  | .done outcome => outcome.emit
  | .next stdout stderr s =>
    IO.print stdout
    IO.eprint stderr
    interact mode s

/-- Runs the command on the files and streams of the process. -/
def serve (args : List String) : IO UInt32 := do
  match Arguments.ofList args with
  | .error interruption => (interrupted interruption).emit
  | .ok ⟨mode, some path⟩ => (runFile .standard mode path (← readFile path)).emit
  | .ok ⟨mode, none⟩ => interact mode (.start .standard)

end LoxCalc.CommandLine

/-- The command. -/
def main (args : List String) : IO UInt32 := LoxCalc.CommandLine.serve args
