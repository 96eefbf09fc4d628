import Lox.Failure
import Lox.Value

set_option autoImplicit false

/-! # Operators

What the operators do to their operands. `+` adds numbers and joins strings, the other arithmetic
operators and the comparisons take numbers only. Both `==` and `!=` hold of values that are not
equal. A token that is no operator with so many operands is a misfit, whatever the operands are.
-/

namespace Lox

namespace Token

/-- The failure of applying an operator to values of the wrong type. -/
def typeError (operator : Token) (cause : RuntimeError.Cause) : Failure :=
  .runtime ⟨operator, cause⟩

/-- Negation takes a number, `!` takes any value. -/
def applyUnary (operator : Token) (operand : Value) : Except Failure Value :=
  match operator.kind, operand with
  | .minus, .number x => .ok (.number (-x))
  | .minus, _ => .error (operator.typeError .operandsNotNumbers)
  | .bang, v => .ok (.boolean !v.isTruthy)
  | _, _ => .error (.misfit operator)

/-- Applies a function of two numbers; other operands have the cause `cause`. -/
def applyNumeric (operator : Token) (cause : RuntimeError.Cause) (f : Float → Float → Value)
    (left right : Value) : Except Failure Value :=
  match left, right with
  | .number x, .number y => .ok (f x y)
  | _, _ => .error (operator.typeError cause)

/-- Both operands are numbers, or both are strings. -/
def applyPlus (operator : Token) (left right : Value) : Except Failure Value :=
  match left, right with
  | .number x, .number y => .ok (.number (x + y))
  | .string s, .string t => .ok (.string (s ++ t))
  | _, _ => .error (operator.typeError .operandsNotAddable)

/-- Applies an operator between two values. Comparisons with NaN never hold. -/
def applyBinary (operator : Token) (left right : Value) : Except Failure Value :=
  match operator.kind with
  | .plus => operator.applyPlus left right
  | .minus => operator.applyNumeric .operandsNotNumbers (fun x y => .number (x - y)) left right
  | .star => operator.applyNumeric .operandNotNumber (fun x y => .number (x * y)) left right
  | .slash => operator.applyNumeric .operandNotNumber (fun x y => .number (x / y)) left right
  | .greater => operator.applyNumeric .operandNotNumber (fun x y => .boolean (y < x)) left right
  | .greaterEqual =>
    operator.applyNumeric .operandNotNumber (fun x y => .boolean (y ≤ x)) left right
  | .less => operator.applyNumeric .operandNotNumber (fun x y => .boolean (x < y)) left right
  | .lessEqual => operator.applyNumeric .operandNotNumber (fun x y => .boolean (x ≤ y)) left right
  | .bangEqual | .equalEqual => .ok (.boolean !left.isEqual right)
  | _ => .error (.misfit operator)

/-- Whether the left operand of a logical operator is the result already, so that the right one is
not evaluated. -/
def decides (operator : Token) (left : Value) : Except Failure Bool :=
  match operator.kind with
  | .kwAnd => .ok !left.isTruthy
  | .kwOr => .ok left.isTruthy
  | _ => .error (.misfit operator)

end Token

end Lox
