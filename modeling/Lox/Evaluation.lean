import Lox.Environment
import Lox.Operator
import Lox.Syntax

set_option autoImplicit false

/-! # Evaluation of expressions

An expression is evaluated in a scope of an environment, its operands from left to right. All it
can change is the values of variables, by the assignments in it. What was assigned before a
failure stays assigned.
-/

namespace Lox

/-- A computation on an environment, which may fail. -/
abbrev Evaluation := EStateM Failure Environment

namespace Evaluation

/-- Reads the variable that a name stands for. -/
def get (scope : Nat) (name : Token) : Evaluation Value := fun env =>
  match env.get scope name with
  | .ok value => .ok value env
  | .error e => .error (.runtime e) env

/-- Assigns to the variable that a name stands for. -/
def assign (scope : Nat) (name : Token) (value : Value) : Evaluation Unit := fun env =>
  match env.assign scope name value with
  | .ok env' => .ok () env'
  | .error e => .error (.runtime e) env

end Evaluation

/-- The value of an expression in the scope `scope`. -/
def Expr.evaluate (scope : Nat) : Expr → Evaluation Value
  | literal value => pure value
  | grouping inner => inner.evaluate scope
  | unary operator operand => do
    let v ← operand.evaluate scope
    MonadExcept.ofExcept (operator.applyUnary v)
  | binary left operator right => do
    let v ← left.evaluate scope
    let w ← right.evaluate scope
    MonadExcept.ofExcept (operator.applyBinary v w)
  | logical left operator right => do
    let v ← left.evaluate scope
    if ← MonadExcept.ofExcept (operator.decides v) then pure v else right.evaluate scope
  | var name => Evaluation.get scope name
  | assign name value => do
    let v ← value.evaluate scope
    Evaluation.assign scope name v
    pure v

end Lox
