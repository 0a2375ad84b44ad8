import LoxCalc.Expr.Basic

/-!
# The grammar of expressions

Expressions are read by recursive descent, with one function for each level of precedence. A level
of binary operators reads an operand of the next tighter level and goes on as long as one of its own
operators follows, so equal operators group to the left. Each function returns the tree and the
tokens behind it, or the tokens at which it had to stop and why; it looks at the kind of one token
beyond those it takes.

    equality    comparison (("!=" | "==") comparison)*
    comparison  term ((">" | ">=" | "<" | "<=") term)*
    term        factor (("-" | "+") factor)*
    factor      unary (("/" | "*") unary)*
    unary       ("!" | "-") unary | primary
    primary     number | string | "true" | "false" | "nil" | "(" equality ")"
-/

namespace LoxCalc

/-- The levels of precedence, from the loosest to the tightest. -/
inductive Level
  | equality | comparison | term | factor | unary | primary
  deriving DecidableEq

namespace Level

/-- The next tighter level. -/
def tighter : Level → Level
  | equality => comparison
  | comparison => term
  | term => factor
  | factor => unary
  | unary => primary
  | primary => primary

/-- How many levels are tighter. -/
def looseness : Level → Nat
  | equality => 5
  | comparison => 4
  | term => 3
  | factor => 2
  | unary => 1
  | primary => 0

theorem looseness_tighter_lt {l : Level} (h : l ≠ primary) : l.tighter.looseness < l.looseness := by
  cases l <;> simp_all [tighter, looseness]

theorem looseness_tighter_le (l : Level) : l.tighter.looseness ≤ 4 := by
  cases l <;> decide

/-- Whether a binary operator belongs to a level. -/
def takes : Level → Token.Kind → Bool
  | equality, .symbol .bangEqual | equality, .symbol .equalEqual => true
  | comparison, .symbol .greater | comparison, .symbol .greaterEqual => true
  | comparison, .symbol .less | comparison, .symbol .lessEqual => true
  | term, .symbol .minus | term, .symbol .plus => true
  | factor, .symbol .slash | factor, .symbol .star => true
  | _, _ => false

/-- Whether an operator can come first at the unary level. -/
def startsUnary : Token.Kind → Bool
  | .symbol .bang | .symbol .minus => true
  | _ => false

/-- The operators of the grammar as they are spelled. -/
theorem takes_symbol_iff (s : Symbol) :
    (equality.takes (.symbol s) ↔ s.text ∈ ["!=", "=="]) ∧
    (comparison.takes (.symbol s) ↔ s.text ∈ [">", ">=", "<", "<="]) ∧
    (term.takes (.symbol s) ↔ s.text ∈ ["-", "+"]) ∧
    (factor.takes (.symbol s) ↔ s.text ∈ ["/", "*"]) ∧
    (startsUnary (.symbol s) ↔ s.text ∈ ["!", "-"]) := by
  cases s <;> decide

/-- Only symbols are operators. -/
theorem exists_symbol_of_takes {l : Level} {k : Token.Kind} (h : l.takes k ∨ startsUnary k) :
    ∃ s, k = .symbol s := by
  cases k with
  | symbol s => exact ⟨s, rfl⟩
  | _ => simp [takes, startsUnary] at h

end Level

namespace Grammar

/-- Why tokens are no expression. -/
inductive Cause
  | expectedExpression
  | expectedRightParen
  | expectedEnd
  deriving DecidableEq

/-- The wording of a cause. -/
def Cause.message : Cause → String
  | expectedExpression => "Expect expression."
  | expectedRightParen => "Expect ')' after expression."
  | expectedEnd => "Expect end of expression."

/-- Where reading had to stop, and why. The first of the tokens left is the one at fault. -/
structure Stop where
  cause : Cause
  rest : List Token

/-- A tree read from the front of `tokens`, and the tokens behind it. -/
structure Parsed (tokens : List Token) where
  expr : Expr
  rest : List Token
  shorter : rest.length < tokens.length

mutual

/-- An expression of a level. -/
def parse (l : Level) (tokens : List Token) : Except Stop (Parsed tokens) :=
  if _hp : l = .primary then primary tokens
  else if l = .unary then unary tokens
  else
    match parse l.tighter tokens with
    | .error stop => .error stop
    | .ok first => chain l first
  termination_by 7 * tokens.length + l.looseness + 1
  decreasing_by
    · omega
    · simp_all [Level.looseness]
    · have := Level.looseness_tighter_lt _hp
      omega
    · have := first.shorter
      omega

/-- The rest of a chain of binary operators of one level, whose left part has been read. -/
def chain (l : Level) {tokens : List Token} (left : Parsed tokens) : Except Stop (Parsed tokens) :=
  match h : left.rest with
  | [] => .ok left
  | op :: after =>
    if l.takes op.kind then
      match parse l.tighter after with
      | .error stop => .error stop
      | .ok right =>
        chain l ⟨.binary left.expr op right.expr, right.rest, by
          have := left.shorter
          have := right.shorter
          simp only [h, List.length_cons] at *
          omega⟩
    else .ok left
  termination_by 7 * left.rest.length
  decreasing_by
    · have := Level.looseness_tighter_le l
      simp only [h, List.length_cons]
      omega
    · have := right.shorter
      simp only [h, List.length_cons]
      omega

/-- An operand with any number of unary operators before it. -/
def unary (tokens : List Token) : Except Stop (Parsed tokens) :=
  match tokens with
  | [] => primary []
  | op :: after =>
    if Level.startsUnary op.kind then
      match unary after with
      | .error stop => .error stop
      | .ok operand => .ok ⟨.unary op operand.expr, operand.rest, by
          have := operand.shorter
          simp only [List.length_cons]
          omega⟩
    else primary (op :: after)
  termination_by 7 * tokens.length + 1

/-- A literal, or an expression in parentheses. -/
def primary (tokens : List Token) : Except Stop (Parsed tokens) :=
  match tokens with
  | [] => .error ⟨.expectedExpression, []⟩
  | t :: after =>
    if t.kind = .symbol .leftParen then
      match parse .equality after with
      | .error stop => .error stop
      | .ok inner =>
        match h : inner.rest with
        | [] => .error ⟨.expectedRightParen, []⟩
        | close :: behind =>
          if close.kind = .symbol .rightParen then
            .ok ⟨.grouping inner.expr, behind, by
              have := inner.shorter
              simp only [h, List.length_cons] at *
              omega⟩
          else .error ⟨.expectedRightParen, close :: behind⟩
    else
      match Value.ofToken? t.data with
      | some value => .ok ⟨.literal value, after, by simp⟩
      | none => .error ⟨.expectedExpression, t :: after⟩
  termination_by 7 * tokens.length
  decreasing_by
    simp only [Level.looseness, List.length_cons]
    omega

end

/-- An expression. -/
def expression (tokens : List Token) : Except Stop (Parsed tokens) := parse .equality tokens

end Grammar

end LoxCalc
