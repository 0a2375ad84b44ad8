import LoxCalc.Expr.Grammar
import LoxCalc.Report

/-!
# Parsers

A parser stands at a place in a list of tokens that holds an end of input. It reads one expression
that must reach up to that end. After a fault it stands at the token at fault, and `synchronize`
moves it on to where the next statement can start. It never moves past an end of input.
-/

namespace LoxCalc

/-- Why and at which token an expression could not be read. -/
structure SyntaxFault where
  cause : Grammar.Cause
  token : Token

/-- The issue that a fault is reported as. -/
def SyntaxFault.issue (f : SyntaxFault) : Issue := f.token.issue .reading f.cause.message

/-- A place in a list of tokens. -/
structure Parser where
  tokens : List Token
  position : Nat

namespace Parser

/-- A list of tokens with an end of input behind the last one, on the same line, if that is not an
end itself. -/
def closed (tokens : List Token) : List Token :=
  match tokens.getLast? with
  | none => [.endOn 1]
  | some last => if last.isEnd then tokens else tokens ++ [.endOn last.line]

/-- The parser at the start of a list of tokens. -/
def ofTokens (tokens : List Token) : Parser := ⟨closed tokens, 0⟩

/-- The tokens that have not been read. -/
def upcoming (p : Parser) : List Token := p.tokens.drop p.position

/-- The token at which a parser stands. Behind the last token stands an end of input, but no parser
gets there. -/
def current (p : Parser) : Token := p.tokens[p.position]?.getD (.endOn 1)

/-- Whether all tokens before an end of input have been read. -/
def isAtEnd (p : Parser) : Bool := p.current.isEnd

/-- The parser for which some last tokens of the list have not been read. -/
def moveTo (p : Parser) (rest : List Token) : Parser :=
  { p with position := p.tokens.length - rest.length }

/-- A parser that has to stop at a token. -/
def fail (p : Parser) (stop : Grammar.Stop) : Except SyntaxFault Expr × Parser :=
  let p := p.moveTo stop.rest
  (.error ⟨stop.cause, p.current⟩, p)

/-- Reads an expression up to the end of input. -/
def parse (p : Parser) : Except SyntaxFault Expr × Parser :=
  match Grammar.expression p.upcoming with
  | .error stop => p.fail stop
  | .ok found =>
    let after := p.moveTo found.rest
    if after.isAtEnd then (.ok found.expr, after)
    else p.fail ⟨.expectedEnd, found.rest⟩

/-- Reads an expression up to the end of input; a fault goes into the report. -/
def parseReporting (p : Parser) (r : Report) : Except SyntaxFault Expr × Parser × Report :=
  match p.parse with
  | (.ok e, p) => (.ok e, p, r)
  | (.error fault, p) => (.error fault, p, r.add fault.issue)

/-- The tokens from the next place on where a statement can start: an end of input, behind a
semicolon, or before a word that starts one. -/
def boundary (previous : Token) : List Token → List Token
  | [] => []
  | t :: after =>
    if t.isEnd || previous.kind = .symbol .semicolon || t.kind.startsStatement then t :: after
    else boundary t after

/-- Moves on to where the next statement can start, over at least one token unless at the end. -/
def synchronize (p : Parser) : Parser :=
  match p.upcoming with
  | [] => p
  | t :: after => if t.isEnd then p else p.moveTo (boundary t after)

end Parser

end LoxCalc
