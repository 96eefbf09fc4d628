import Lox.Output
import Lox.Token

set_option autoImplicit false

/-! # Failures at run time

Execution ends early when an operator is applied to values of the wrong type, when a variable is
used that is not bound, or when the output fails. A tree with an operator that does not belong in
its node cannot be executed either; programs that were read from tokens have no such operator.
-/

namespace Lox

namespace RuntimeError

/-- What is wrong at run time. The three type errors differ in their wording only: which of them an
operator raises is part of the language. -/
inductive Cause where
  | operandNotNumber
  | operandsNotNumbers
  | operandsNotAddable
  | undefinedVariable (name : String)
deriving DecidableEq

namespace Cause

/-- The cause in words. -/
def message : Cause → String
  | operandNotNumber => "Operand must be a number."
  | operandsNotNumbers => "Operands must be numbers."
  | operandsNotAddable => "Operands must be two numbers or two strings."
  | undefinedVariable name => s!"Undefined variable '{name}'"

/-- Whether an operator was applied to values of the wrong type. -/
def isTypeError : Cause → Bool
  | undefinedVariable _ => false
  | _ => true

end Cause

end RuntimeError

/-- A fault of the program at run time, and the token that is blamed for it. -/
structure RuntimeError where
  token : Token
  cause : RuntimeError.Cause
deriving DecidableEq

namespace RuntimeError

/-- The line of the blamed token. -/
def line (e : RuntimeError) : Nat := e.token.line

def message (e : RuntimeError) : String := e.cause.message

/-- The whole error message: the cause, and the line on a line of its own. -/
def text (e : RuntimeError) : String := s!"{e.message}\n[line {e.line}]"

end RuntimeError

/-- Why execution ended early. -/
inductive Failure where
  | runtime (e : RuntimeError)
  | output (e : WriteError)
  /-- The token `operator` does not belong in the node it stands in. -/
  | misfit (operator : Token)
deriving DecidableEq

namespace Failure

/-- Whether the tree could not be executed at all. -/
def isMisfit : Failure → Bool
  | misfit _ => true
  | _ => false

/-- The whole error message. -/
def text : Failure → String
  | runtime e => e.text
  | output e => s!"failed to write program output: {e.message}"
  | misfit _ => "internal error: entered unreachable code"

end Failure

end Lox
