import LoxCalc.Expr.Basic
import LoxCalc.Report

/-!
# Evaluation

The value of an expression. Operands are evaluated from left to right, all of them, before their
operator is applied, and the first fault is the outcome. The dialects differ in the sum of a string
and something else: the standard one joins the texts of both, the strict one refuses.
-/

namespace LoxCalc

/-- The two readings of a sum with one string. -/
inductive Dialect
  | standard
  | strict
  deriving DecidableEq

namespace Eval

/-- Why an operator cannot be applied. -/
inductive Cause
  | operandMustBeNumber
  | operandsMustBeNumbers
  | operandsMustBeNumbersOrStrings
  | unknownOperator
  deriving DecidableEq

/-- The wording of a cause. -/
def Cause.message : Cause → String
  | operandMustBeNumber => "Operand must be a number."
  | operandsMustBeNumbers => "Operands must be numbers."
  | operandsMustBeNumbersOrStrings => "Operands must be two numbers or two strings."
  | unknownOperator => "Unknown operator."

/-- Why an expression has no value, and the operator at fault. -/
structure Fault where
  cause : Cause
  operator : Token

/-- The issue that a fault is reported as. -/
def Fault.issue (f : Fault) : Issue := f.operator.issue .evaluation f.cause.message

/-- A number computed from two numbers. -/
def arithmetic (f : Float → Float → Float) : Value → Value → Except Cause Value
  | .number x, .number y => .ok (.number (f x y))
  | _, _ => .error .operandsMustBeNumbers

/-- A truth value computed from two numbers. -/
def comparison (f : Float → Float → Bool) : Value → Value → Except Cause Value
  | .number x, .number y => .ok (.boolean (f x y))
  | _, _ => .error .operandsMustBeNumbers

/-- The sum of two numbers, or the texts of two values one behind the other. -/
def sum (d : Dialect) : Value → Value → Except Cause Value
  | .number x, .number y => .ok (.number (x + y))
  | .string s, .string t => .ok (.string (s ++ t))
  | a, b =>
    if d = .standard ∧ (a.kind = .string ∨ b.kind = .string) then .ok (.string (a.text ++ b.text))
    else .error .operandsMustBeNumbersOrStrings

/-- An operator applied to two values. -/
def applyBinary (d : Dialect) (op : Token.Kind) (a b : Value) : Except Cause Value :=
  match op with
  | .symbol .plus => sum d a b
  | .symbol .minus => arithmetic (· - ·) a b
  | .symbol .star => arithmetic (· * ·) a b
  | .symbol .slash => arithmetic (· / ·) a b
  | .symbol .greater => comparison (fun x y => decide (x > y)) a b
  | .symbol .greaterEqual => comparison (fun x y => decide (x ≥ y)) a b
  | .symbol .less => comparison (fun x y => decide (x < y)) a b
  | .symbol .lessEqual => comparison (fun x y => decide (x ≤ y)) a b
  | .symbol .equalEqual => .ok (.boolean (a.equals b))
  | .symbol .bangEqual => .ok (.boolean (!a.equals b))
  | _ => .error .unknownOperator

/-- An operator applied to one value. -/
def applyUnary (op : Token.Kind) (a : Value) : Except Cause Value :=
  match op with
  | .symbol .minus =>
    match a with
    | .number x => .ok (.number (-x))
    | _ => .error .operandMustBeNumber
  | .symbol .bang => .ok (.boolean (!a.isTruthy))
  | _ => .error .unknownOperator

end Eval

namespace Expr

/-- The value of an expression, or the first fault. -/
def eval (d : Dialect) : Expr → Except Eval.Fault Value
  | literal value => .ok value
  | grouping inner => inner.eval d
  | unary op operand =>
    match operand.eval d with
    | .error fault => .error fault
    | .ok a => (Eval.applyUnary op.kind a).mapError (⟨·, op⟩)
  | binary left op right =>
    match left.eval d with
    | .error fault => .error fault
    | .ok a =>
      match right.eval d with
      | .error fault => .error fault
      | .ok b => (Eval.applyBinary d op.kind a b).mapError (⟨·, op⟩)

/-- The value of an expression; a fault goes into the report. -/
def evalReporting (d : Dialect) (e : Expr) (r : Report) : Option Value × Report :=
  match e.eval d with
  | .ok value => (some value, r)
  | .error fault => (none, r.add fault.issue)

end Expr

end LoxCalc
