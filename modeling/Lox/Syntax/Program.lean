import Lox.Syntax.Declaration

set_option autoImplicit false

/-! # Reading programs

A program is a list of declarations up to the end of the tokens. The end is the first token of
the kind `eof`; what follows it is not looked at. If there is none, the end lies on the line of
the last token.
-/

namespace Lox

/-- The statements of a program that were kept, and the faults of the others. -/
structure Program where
  statements : List Stmt
  errors : List ParseError
deriving DecidableEq

namespace Program

/-- The tokens before the end. -/
def body (ts : List Token) : List Token := ts.takeWhile (·.kind ≠ .eof)

/-- The token that is blamed for a fault at the end. -/
def ending (ts : List Token) : Token :=
  match ts.find? (·.kind = .eof) with
  | some eof => eof
  | none => .endOn (ts.getLast?.elim 1 (·.line))

/-- Reads the tokens before the end. -/
def ofTokens (ts : List Token) : Program :=
  match Parse.declarations (ending ts) false (body ts) with
  | ⟨statements, _, reports, _⟩ => ⟨statements, reports⟩

end Program

end Lox
