/-!
# Issues

An issue is one fault found while reading or evaluating a source: where it is and what it says.
-/

namespace LoxCalc

/-- What an issue points at within its line. -/
inductive Location
  | unknown
  | atEnd
  | atLexeme (lexeme : String)
  deriving DecidableEq

/-- A location as it stands behind the kind of an issue. -/
def Location.text : Location → String
  | unknown => ""
  | atEnd => " at end"
  | atLexeme lexeme => " at '" ++ lexeme ++ "'"

/-- The stage at which an issue was found. -/
inductive Stage
  | reading
  | evaluation
  deriving DecidableEq

/-- The word for issues of a stage. -/
def Stage.label : Stage → String
  | reading => "Error"
  | evaluation => "Runtime error"

/-- One fault: its stage, its place and what it says. -/
structure Issue where
  stage : Stage
  line : Nat
  location : Location
  message : String
  deriving DecidableEq

/-- An issue on one line, unless its message or lexeme has line feeds. -/
def Issue.text (i : Issue) : String :=
  "[line " ++ toString i.line ++ "] " ++ i.stage.label ++ i.location.text ++ ": " ++ i.message

end LoxCalc
