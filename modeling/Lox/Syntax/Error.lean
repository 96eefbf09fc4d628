import Lox.Token

set_option autoImplicit false

/-! # Syntax errors

A list of tokens is faulty where the grammar demands something that is not there, or where the
left side of an assignment is not a name. The first kind of fault ends the declaration it lies in.
The second does not: the assignment is left out and everything around it is kept.
-/

namespace Lox

/-- What the grammar may demand of the next tokens. -/
inductive Expected where
  | variableName
  | semicolonAfterDeclaration
  | semicolonAfterValue
  | semicolonAfterExpression
  | parenAfterIf
  | parenAfterCondition
  | braceAfterBlock
  | parenAfterExpression
  | expression
deriving DecidableEq, Repr

/-- The demand in words. -/
def Expected.message : Expected → String
  | variableName => "Expect variable name."
  | semicolonAfterDeclaration => "Expect ';' after variable declaration."
  | semicolonAfterValue => "Expect ';' after value."
  | semicolonAfterExpression => "Expect ';' after expression."
  | parenAfterIf => "Expect '(' after 'if'."
  | parenAfterCondition => "Expect ')' after if condition."
  | braceAfterBlock => "Expect '\x7d' after block."
  | parenAfterExpression => "Expect ')' after expression."
  | expression => "Expect expression."

namespace ParseError

/-- What is wrong: something is missing, or the left side of an assignment is not a name. -/
inductive Cause where
  | missing (what : Expected)
  | invalidTarget
deriving DecidableEq, Repr

/-- The cause in words. -/
def Cause.message : Cause → String
  | missing what => what.message
  | invalidTarget => "Invalid assignment target."

end ParseError

/-- A fault in a list of tokens, and the token that is blamed for it. -/
structure ParseError where
  token : Token
  cause : ParseError.Cause
deriving DecidableEq

namespace ParseError

/-- Whether the declaration with the fault is dropped. -/
def isFatal (e : ParseError) : Bool := e.cause ≠ .invalidTarget

/-- The line of the blamed token. -/
def line (e : ParseError) : Nat := e.token.line

def message (e : ParseError) : String := e.cause.message

/-- A fault is fatal if its message is not the one about targets of assignments. -/
theorem isFatal_iff_message_ne (e : ParseError) :
    e.isFatal ↔ e.message ≠ "Invalid assignment target." := by
  obtain ⟨t, cause⟩ := e
  cases cause with
  | missing what => cases what <;> simp [isFatal, message, Cause.message, Expected.message]
  | invalidTarget => simp [isFatal, message, Cause.message]

/-- The place of the fault in words. -/
def place (e : ParseError) : String :=
  if e.token.kind = .eof then "at end" else s!"at '{e.token.lexeme}'"

/-- The whole error message. -/
def text (e : ParseError) : String := s!"[line {e.line}] Error {e.place}: {e.message}"

end ParseError

end Lox
