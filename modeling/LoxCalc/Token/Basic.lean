import LoxCalc.Issue

/-!
# Tokens

A token is a piece of source text that means something: what it means, how it is spelled and the
line it ends on. Symbols and keywords are spelled in one way only, so their texts stand in a table;
names, strings and numbers carry what the spelling says.
-/

namespace LoxCalc

/-- The punctuation and operators of one or two characters. -/
inductive Symbol
  | leftParen | rightParen | leftBrace | rightBrace | comma | dot | minus | plus | semicolon
  | slash | star | bang | bangEqual | equal | equalEqual | greater | greaterEqual | less | lessEqual
  deriving DecidableEq

namespace Symbol

/-- The symbol that is spelled with one character. -/
def ofChar? : Char → Option Symbol
  | '(' => some leftParen
  | ')' => some rightParen
  | '\x7b' => some leftBrace
  | '\x7d' => some rightBrace
  | ',' => some comma
  | '.' => some dot
  | '-' => some minus
  | '+' => some plus
  | ';' => some semicolon
  | '/' => some slash
  | '*' => some star
  | '!' => some bang
  | '=' => some equal
  | '>' => some greater
  | '<' => some less
  | _ => none

/-- The symbol that an equals sign behind a symbol turns it into. -/
def withEqual? : Symbol → Option Symbol
  | bang => some bangEqual
  | equal => some equalEqual
  | greater => some greaterEqual
  | less => some lessEqual
  | _ => none

/-- The spelling of a symbol. -/
def text : Symbol → String
  | leftParen => "("
  | rightParen => ")"
  | leftBrace => "\x7b"
  | rightBrace => "\x7d"
  | comma => ","
  | dot => "."
  | minus => "-"
  | plus => "+"
  | semicolon => ";"
  | slash => "/"
  | star => "*"
  | bang => "!"
  | bangEqual => "!="
  | equal => "="
  | equalEqual => "=="
  | greater => ">"
  | greaterEqual => ">="
  | less => "<"
  | lessEqual => "<="

end Symbol

/-- The reserved words. -/
inductive Keyword
  | andWord | classWord | elseWord | falseWord | forWord | funWord | ifWord | nilWord
  | orWord | printWord | returnWord | superWord | thisWord | trueWord | varWord | whileWord
  deriving DecidableEq

namespace Keyword

/-- All reserved words, in alphabetical order. -/
def all : List Keyword :=
  [andWord, classWord, elseWord, falseWord, forWord, funWord, ifWord, nilWord,
    orWord, printWord, returnWord, superWord, thisWord, trueWord, varWord, whileWord]

/-- The spelling of a reserved word. -/
def text : Keyword → String
  | andWord => "and"
  | classWord => "class"
  | elseWord => "else"
  | falseWord => "false"
  | forWord => "for"
  | funWord => "fun"
  | ifWord => "if"
  | nilWord => "nil"
  | orWord => "or"
  | printWord => "print"
  | returnWord => "return"
  | superWord => "super"
  | thisWord => "this"
  | trueWord => "true"
  | varWord => "var"
  | whileWord => "while"

/-- The reserved word with a spelling. -/
def ofText? (s : String) : Option Keyword := all.find? (·.text = s)

theorem ofText?_text (k : Keyword) : ofText? k.text = some k := by cases k <;> decide

/-- A text is a reserved word exactly if it is the spelling of one. -/
theorem ofText?_eq_some_iff {s : String} {k : Keyword} : ofText? s = some k ↔ s = k.text := by
  constructor
  · intro h
    rw [ofText?] at h
    have hfound := List.find?_some h
    exact (of_decide_eq_true hfound).symm
  · rintro rfl
    exact ofText?_text k

end Keyword

namespace Token

/-- What a token is, apart from the text or number it carries. -/
inductive Kind
  | symbol (s : Symbol)
  | keyword (k : Keyword)
  | identifier
  | string
  | number
  | endOfInput
  deriving DecidableEq

namespace Kind

/-- The operators that stand between two operands. -/
def isBinaryOperator : Kind → Bool
  | symbol .bangEqual | symbol .equalEqual => true
  | symbol .greater | symbol .greaterEqual | symbol .less | symbol .lessEqual => true
  | symbol .minus | symbol .plus | symbol .slash | symbol .star => true
  | _ => false

/-- The operators that stand before one operand. -/
def isUnaryOperator : Kind → Bool
  | symbol .bang | symbol .minus => true
  | _ => false

/-- The words that a statement can start with. -/
def startsStatement : Kind → Bool
  | keyword .classWord | keyword .funWord | keyword .varWord | keyword .forWord => true
  | keyword .ifWord | keyword .whileWord | keyword .printWord | keyword .returnWord => true
  | _ => false

end Kind

/-- What a token means. -/
inductive Data
  | symbol (s : Symbol)
  | keyword (k : Keyword)
  | identifier
  | string (text : String)
  | number (x : Float)
  | endOfInput
  deriving DecidableEq

namespace Data

/-- The kind of a meaning. -/
def kind : Data → Kind
  | symbol s => .symbol s
  | keyword k => .keyword k
  | identifier => .identifier
  | string _ => .string
  | number _ => .number
  | endOfInput => .endOfInput

end Data

end Token

/-- A piece of source text that means something, and the line it ends on. -/
structure Token where
  data : Token.Data
  lexeme : String
  line : Nat
  deriving DecidableEq

namespace Token

/-- The kind of a token. -/
def kind (t : Token) : Kind := t.data.kind

/-- The token behind the last one of a source. -/
def endOn (line : Nat) : Token := ⟨.endOfInput, "", line⟩

/-- Whether a token is the end of the input. -/
def isEnd (t : Token) : Bool := t.kind = .endOfInput

/-- How an issue refers to a token. -/
def location (t : Token) : Location :=
  if t.isEnd then .atEnd else .atLexeme t.lexeme

/-- An issue about a token. -/
def issue (t : Token) (stage : Stage) (message : String) : Issue :=
  ⟨stage, t.line, t.location, message⟩

end Token

end LoxCalc
