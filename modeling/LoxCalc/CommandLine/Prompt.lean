import LoxCalc.CommandLine.Folder
import LoxCalc.CommandLine.Outcome
import LoxCalc.Session

/-!
# The prompt

The prompt asks for a line, runs it as a source of its own, and asks again. It ends when the input
does, at a line with nothing before its line end, or at a line that is no text.
-/

namespace LoxCalc.CommandLine

namespace Prompt

/-- What is printed before a line is read. -/
def sign : String := "> "

/-- Whether a line has nothing before its end. -/
def endsSession (line : String) : Bool := line.toList.all fun c => c = '\r' || c = '\n'

/-- Puts a byte before the first of some lines, or on a line of its own if it is a line feed or
there is no line. -/
def addByte (b : UInt8) : List (List UInt8) → List (List UInt8)
  | [] => [[b]]
  | line :: rest => if b = 10 then [b] :: line :: rest else (b :: line) :: rest

/-- The input cut behind each line feed. The last line may lack one. -/
def lines (input : List UInt8) : List (List UInt8) := input.foldr addByte []

/-- What becomes of one line: the end of the session, or what was written and how it goes on. -/
inductive Step
  | done (outcome : Outcome)
  | next (stdout stderr : String) (session : Session)

/-- Answers one line. -/
def step (mode : Mode) (s : Session) (line : List UInt8) : Step :=
  match decode ⟨line.toArray⟩ with
  | .error fault => .done ⟨1, "", "Error: " ++ fault.message ++ "\n"⟩
  | .ok text =>
    if endsSession text then .done ⟨0, "", ""⟩
    else
      let (shown, s) := s.run mode text
      let (issues, s) := s.take
      .next shown (printed issues) s.reset

/-- Answers line after line. -/
def answer (mode : Mode) (s : Session) : List (List UInt8) → Outcome
  | [] => ⟨0, sign, ""⟩
  | line :: rest =>
    match step mode s line with
    | .done outcome => outcome.after sign ""
    | .next stdout stderr s => (answer mode s rest).after (sign ++ stdout) stderr

/-- Runs the prompt on an input. -/
def run (d : Dialect) (mode : Mode) (input : ByteArray) : Outcome :=
  answer mode (.start d) (lines input.data.toList)

end Prompt

end LoxCalc.CommandLine
