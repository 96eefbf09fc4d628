import Lox.Execution
import Lox.Syntax.Program
import Lox.Token.Stream

set_option autoImplicit false

/-! # Sessions

Sources are given to one interpreter one after the other; the global variables stay from source to
source. `run` executes a source only if it has no fault at all. `recover` executes what is left of
a source without its faulty parts.
-/

namespace Lox

/-- A fault of a source. -/
inductive Diagnostic where
  | lex (e : LexError)
  | parse (e : ParseError)
deriving DecidableEq

/-- The whole error message. -/
def Diagnostic.text : Diagnostic → String
  | lex e => e.text
  | parse e => e.text

/-- What was read from a source. -/
structure Reading where
  scan : Scan
  program : Program

namespace Reading

/-- Reads a source to its end, whatever faults it has. -/
def ofString (source : String) : Reading :=
  let scan := Scan.ofString source
  ⟨scan, .ofTokens scan.tokens⟩

/-- The faults of the source, the lexical ones first. -/
def diagnostics (r : Reading) : List Diagnostic :=
  r.scan.errors.map .lex ++ r.program.errors.map .parse

/-- What the trace shows of reading the source. -/
def events (r : Reading) : List Event :=
  [.scanned r.scan.tokens.length r.scan.errors.length,
   .parsed r.program.statements.length r.program.errors.length]

end Reading

/-- Why a source did not run to its end. -/
inductive RunError where
  | faulty (diagnostics : List Diagnostic)
  | failed (failure : Failure)
deriving DecidableEq

/-- The whole error message; that of a faulty source has a line for each fault. -/
def RunError.text : RunError → String
  | faulty diagnostics => "\n".intercalate (diagnostics.map Diagnostic.text)
  | failed failure => failure.text

namespace Interpreter

variable {ω : Type} [Writer ω]

/-- Notes in the trace that a source was read. -/
def announce (r : Reading) (s : Interpreter ω) : Interpreter ω :=
  { s with trace := s.trace ++ r.events }

/-- Executes the statements that were kept, whatever faults the source has. -/
def recover (r : Reading) : Execution ω Unit := fun s =>
  interpret r.program.statements (s.announce r)

/-- Executes a source without faults. -/
def run (source : String) : EStateM RunError (Interpreter ω) Unit := fun s =>
  let r := Reading.ofString source
  match r.diagnostics with
  | [] =>
    match recover r s with
    | .ok () t => .ok () t
    | .error f t => .error (.failed f) t
  | d :: ds => .error (.faulty (d :: ds)) (s.announce r)

end Interpreter

end Lox
