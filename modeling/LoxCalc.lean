import LoxCalc.Main
import LoxCalc.Proofs.Expr.Counter
import LoxCalc.Proofs.Session.Verdict
import LoxCalc.Proofs.Token.Cut
import LoxCalc.Proofs.Eval.Dialects
import LoxCalc.Proofs.Eval.Typing
import LoxCalc.Proofs.Expr.Recovery
import LoxCalc.Proofs.Token.LineBreak
import LoxCalc.Proofs.CommandLine.Lines
import LoxCalc.Proofs.Report.History
import LoxCalc.Proofs.Token.Respelling
import LoxCalc.Proofs.Text.Slices
import LoxCalc.Proofs.Token.Slices
import LoxCalc.Proofs.Expr.Indexed
import LoxCalc.Proofs.Session.Checks
import LoxCalc.Proofs.Eval.Operators
import LoxCalc.Proofs.Token.Lazy
import LoxCalc.Proofs.Session.Layout
import LoxCalc.Proofs.Session.ReadBack
import LoxCalc.Proofs.Token.Blanked
import LoxCalc.Proofs.Token.Lines
import LoxCalc.Proofs.Session.Lines
import LoxCalc.Proofs.CommandLine.Exit
import LoxCalc.Proofs.Expr.Ahead
import LoxCalc.Proofs.Expr.Boundary
import LoxCalc.Proofs.Session.Parentheses
import LoxCalc.Proofs.Session.Modes
import LoxCalc.Proofs.Eval.Concatenation
import LoxCalc.Proofs.Eval.Equality
import LoxCalc.Proofs.Session.Room
import LoxCalc.Proofs.Session.Prefix
import LoxCalc.Proofs.Text.Between
import LoxCalc.Proofs.Text.Span
import LoxCalc.Proofs.Expr.Progress
