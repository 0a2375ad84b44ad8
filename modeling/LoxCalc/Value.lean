import LoxCalc.Decimal.Shortest
import LoxCalc.Token.Basic

/-!
# Values

The values that expressions have: numbers, strings, the two truth values and nil. Literals of an
expression are values too.
-/

namespace LoxCalc

/-- A value. Values compared by `==` are equal if their types are, and what they hold; numbers are
compared as IEEE 754 says, so the two zeros are equal and NaN is not equal to itself. -/
inductive Value
  | number (x : Float)
  | string (s : String)
  | boolean (b : Bool)
  | nil
  deriving BEq

namespace Value

/-- The types of values. -/
inductive Kind
  | number
  | string
  | boolean
  | nil
  deriving DecidableEq

/-- The name of a type. -/
def Kind.name : Kind → String
  | number => "number"
  | string => "string"
  | boolean => "boolean"
  | nil => "nil"

/-- The type of a value. -/
def kind : Value → Kind
  | number _ => .number
  | string _ => .string
  | boolean _ => .boolean
  | nil => .nil

/-- A value as text. Strings stand for themselves, without quotes. -/
def text : Value → String
  | number x => Decimal.text x
  | string s => s
  | boolean true => "true"
  | boolean false => "false"
  | nil => "nil"

/-- What counts as true: everything but nil and false. -/
def isTruthy : Value → Bool
  | boolean b => b
  | nil => false
  | _ => true

/-- Equality in the language: values of different types are never equal. -/
def equals : Value → Value → Bool
  | number x, number y => x == y
  | string s, string t => s == t
  | boolean a, boolean b => a == b
  | nil, nil => true
  | _, _ => false

/-- The value that a token stands for on its own. -/
def ofToken? : Token.Data → Option Value
  | .number x => some (number x)
  | .string s => some (string s)
  | .keyword .trueWord => some (boolean true)
  | .keyword .falseWord => some (boolean false)
  | .keyword .nilWord => some nil
  | _ => none

end Value

end LoxCalc
