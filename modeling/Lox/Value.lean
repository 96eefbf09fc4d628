import Lox.Number.Numeral
import Lox.Token

set_option autoImplicit false

/-! # Values

The values that programs compute with. `nil` and `false` are the only values that do not count as
true. Values of different types are never equal; numbers are compared as numbers, so NaN differs
from itself and the two zeros are equal.
-/

namespace Lox

/-- A value. -/
inductive Value where
  | nil
  | boolean (value : Bool)
  | number (value : Float)
  | string (value : String)
deriving DecidableEq

namespace Value

/-- Whether a value counts as true in a condition. -/
def isTruthy : Value → Bool
  | nil | boolean false => false
  | _ => true

/-- Whether two values are equal for the language. -/
def isEqual : Value → Value → Bool
  | nil, nil => true
  | boolean a, boolean b => a == b
  | number a, number b => a == b
  | string a, string b => a == b
  | _, _ => false

/-- What a print statement shows of a value. A string is shown without quotes. -/
def text : Value → String
  | nil => "nil"
  | boolean true => "true"
  | boolean false => "false"
  | number x => Numeral.text x
  | string s => s

/-- The value that a literal denotes. -/
def ofLiteral : Token.Literal → Value
  | .string s => string s
  | .number x => number x

end Value

end Lox
