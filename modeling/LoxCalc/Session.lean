import LoxCalc.Expr.Eval
import LoxCalc.Expr.Parser
import LoxCalc.Text.Sink
import LoxCalc.Token.Stream

/-!
# Sessions

A session runs sources one after another and collects their issues in one report. A source that has
a fault is not evaluated, and faults of earlier sources do not matter. Each run shows at most one
text: the value of the source, or its tree.
-/

namespace LoxCalc

/-- What is shown of a source. -/
inductive Mode
  | value
  | tree
  deriving DecidableEq

/-- The dialect that sources are read in, and the issues found so far. -/
structure Session where
  dialect : Dialect
  report : Report

namespace Session

/-- A session without issues. -/
def start (d : Dialect) : Session := ⟨d, .empty⟩

/-- The tree of a source, if there is no fault in it. -/
def read? (s : Session) (source : String) : Option Expr × Session :=
  let (tokens, stream) := (TokenStream.ofString source).drain
  let (result, _, report) := (Parser.ofTokens tokens).parseReporting (stream.report s.report)
  (if stream.lexicalFaults.isEmpty then result.toOption else none, { s with report })

/-- The text that a source shows, if there is any. -/
def show? (s : Session) (mode : Mode) (source : String) : Option String × Session :=
  match s.read? source with
  | (none, s) => (none, s)
  | (some e, s) =>
    match mode with
    | .tree => (some e.text, s)
    | .value =>
      let (value, report) := e.evalReporting s.dialect s.report
      (value.map Value.text, { s with report })

/-- Runs a source; what it shows is a line of the output. -/
def run (s : Session) (mode : Mode) (source : String) : String × Session :=
  match s.show? mode source with
  | (none, s) => ("", s)
  | (some text, s) => (text ++ "\n", s)

/-- Runs a source with an output of limited room, and says whether all that it shows was written.
The report does not depend on the output. -/
def runInto (s : Session) (mode : Mode) (source : String) (k : Sink) : Bool × Sink × Session :=
  match s.show? mode source with
  | (none, s) => (true, k, s)
  | (some text, s) =>
    let (fits, k) := k.writeLine text
    (fits, k, s)

/-- The issues held, and the session without them. -/
def take (s : Session) : List Issue × Session :=
  let (issues, report) := s.report.take
  (issues, { s with report })

/-- The session with an empty report. -/
def reset (s : Session) : Session := { s with report := .empty }

end Session

end LoxCalc
