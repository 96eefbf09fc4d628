import Lox.Failure
import Lox.Syntax

set_option autoImplicit false

/-! # Traces

What is noted while a source is read and executed: the outcome of reading, every statement before
it is executed, the scopes as they open and close, and the failure that ended the execution.
-/

namespace Lox

namespace Stmt

/-- The forms of statements. -/
inductive Form where
  | expression
  | print
  | declare
  | block
  | conditional
deriving DecidableEq, Repr

/-- The form of a statement; a conditional is one with or without a second branch. -/
def form : Stmt → Form
  | expression _ => .expression
  | print _ => .print
  | declare _ _ => .declare
  | block _ => .block
  | ifThen _ _ | ifElse _ _ _ => .conditional

/-- The name under which the trace shows a form. -/
def Form.name : Form → String
  | expression => "Expression"
  | print => "Print"
  | declare => "Var"
  | block => "Block"
  | conditional => "If"

end Stmt

/-- What a trace consists of. -/
inductive Event where
  | scanned (tokens errors : Nat)
  | parsed (statements errors : Nat)
  | executing (form : Stmt.Form)
  | opened (scope inside : Nat)
  | closed (scope : Nat)
  | aborted (failure : Failure)
deriving DecidableEq

namespace Event

/-- The event in words. -/
def message : Event → String
  | scanned tokens errors => s!"scanned {tokens} tokens with {errors} lex errors"
  | parsed statements errors => s!"parsed {statements} statements with {errors} parse errors"
  | executing form => s!"executing {form.name}"
  | opened scope inside => s!"opened scope {scope} inside {inside}"
  | closed scope => s!"closed scope {scope}"
  | aborted failure => s!"interpretation aborted: {failure.text}"

/-- Whether the event is one of the steps of an execution and not an outcome. -/
def isStep : Event → Bool
  | executing _ | opened _ _ | closed _ => true
  | _ => false

end Event

end Lox
