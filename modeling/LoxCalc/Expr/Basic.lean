import LoxCalc.Value

/-!
# Expressions

An expression is a tree of literals, parentheses and operators. Operators are kept as the tokens
they were read from. `Expr.text` writes a tree in prefix form.
-/

namespace LoxCalc

/-- An expression. Any token can stand as an operator; only some of them have a meaning. -/
inductive Expr
  | literal (value : Value)
  | grouping (inner : Expr)
  | unary (op : Token) (operand : Expr)
  | binary (left : Expr) (op : Token) (right : Expr)

namespace Expr

/-- A tree in prefix form: an operator with its operands behind it in parentheses. -/
def text : Expr → String
  | literal value => value.text
  | grouping inner => "(group " ++ inner.text ++ ")"
  | unary op operand => "(" ++ op.lexeme ++ " " ++ operand.text ++ ")"
  | binary left op right => "(" ++ op.lexeme ++ " " ++ left.text ++ " " ++ right.text ++ ")"

/-! ### The words of the prefix form -/

/-- The operands of a node. -/
def operands : Expr → List Expr
  | literal _ => []
  | grouping inner => [inner]
  | unary _ operand => [operand]
  | binary left _ right => [left, right]

/-- The word that a node is written with. -/
def heading : Expr → List Char
  | literal value => value.text.toList
  | grouping _ => "group".toList
  | unary op _ => op.lexeme.toList
  | binary _ op _ => op.lexeme.toList

/-- Some trees in prefix form, each behind a blank. -/
def textBehind (es : List Expr) : List Char := es.flatMap fun e => ' ' :: e.text.toList

/-- A node without operands is written as its word alone. -/
theorem toList_text_of_eq_nil {e : Expr} (h : e.operands = []) : e.text.toList = e.heading := by
  cases e with
  | literal value => rfl
  | _ => cases h

/-- A node with operands is written in parentheses, with the operands behind its word. -/
theorem toList_text_of_ne_nil {e : Expr} (h : e.operands ≠ []) :
    e.text.toList = '(' :: (e.heading ++ (textBehind e.operands ++ [')'])) := by
  cases e with
  | literal value => exact absurd rfl h
  | _ => simp [text, operands, heading, textBehind]

end Expr

end LoxCalc
