import LoxCalc.Issue

/-!
# Outcomes

What can be seen of a command once it has ended.
-/

namespace LoxCalc.CommandLine

/-- What a command leaves behind: its exit code and what it wrote. -/
structure Outcome where
  exit : Nat
  stdout : String
  stderr : String
  deriving DecidableEq

/-- An outcome with something written before it. -/
def Outcome.after (o : Outcome) (stdout stderr : String) : Outcome :=
  ⟨o.exit, stdout ++ o.stdout, stderr ++ o.stderr⟩

/-- Issues as they are printed, each on a line. -/
def printed (issues : List Issue) : String :=
  String.join (issues.map fun i => i.text ++ "\n")

end LoxCalc.CommandLine
