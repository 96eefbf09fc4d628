import Lox.Syntax.Program

set_option autoImplicit false

/-! # Reading with a cursor

The rules of the grammar once more, as a walk of one cursor over the whole list of tokens. The rules
see the token at the cursor, which is the end if the cursor is behind the last token, and the one in
front of it. They advance token by token, never over a token of the kind `eof`.

Nothing bounds the rules here. Each is the least defined function that obeys its equation, so a walk
that never came to an end would have no outcome at all.
-/

namespace Lox

/-- Where the cursor stands, and the faults that were reported on its way. -/
structure Cursor where
  position : Nat
  reports : List ParseError

/-- A walk of the cursor. It has no outcome if it does not come to an end. -/
abbrev Walk := StateT Cursor Option

/-- A walk that may stop at a fault. -/
abbrev Step := ExceptT ParseError Walk

/-- The tokens that the rules descend on. -/
abbrev Descent := List Token

namespace Descent

/-! ## The cursor -/

/-- The token in a place, or behind the last token an end on the same line. -/
def tokenAt (ts : Descent) (i : Nat) : Token := ts[i]?.getD (.endOn (ts.getLast?.elim 1 (·.line)))

/-- The token at the cursor. -/
def look (ts : Descent) : Walk Token := do return tokenAt ts (← get).position

/-- The token in front of the cursor. -/
def previous? (ts : Descent) : Walk (Option Token) := do
  let c ← get
  return if c.position = 0 then none else ts[c.position - 1]?

/-- Advances by one token, but not over the end. -/
def advance (ts : Descent) : Walk Token := do
  let t ← look ts
  if t.kind ≠ .eof then
    modify fun c => { c with position := c.position + 1 }
  return t

/-- Advances if the token at the cursor is of a kind with the property `p`. -/
def advanceOn (ts : Descent) (p : Token.Kind → Bool) : Walk (Option Token) := do
  let t ← look ts
  if p t.kind ∧ t.kind ≠ .eof then
    return some (← advance ts)
  else
    return none

/-- Advances over a token of the kind `kind`, which has to be there. -/
def demand (ts : Descent) (kind : Token.Kind) (missing : Expected) : Step Token := do
  let t ← look ts
  if t.kind = kind then
    advance ts
  else
    throw ⟨t, .missing missing⟩

def report (e : ParseError) : Walk Unit :=
  modify fun c => { c with reports := c.reports ++ [e] }

/-! ## Expressions -/

mutual

def expression (ts : Descent) : Step Expr := ts |>.assignment
partial_fixpoint

def assignment (ts : Descent) : Step Expr := do
  let target ← ts |>.level .disjunction
  match ← advanceOn ts (· = .equal) with
  | none => return target
  | some equals =>
    let value ← ts |>.assignment
    match target with
    | .var name => return .assign name value
    | target =>
      report ⟨equals, .invalidTarget⟩
      return target
partial_fixpoint

def level (ts : Descent) (l : Level) : Step Expr := do
  let left ← ts |>.operand l
  ts |>.chain l left
partial_fixpoint

def operand (ts : Descent) (l : Level) : Step Expr :=
  match l.tighter with
  | some m => ts |>.level m
  | none => ts |>.unary
partial_fixpoint

/-- Goes on after the first operands of a level, which make `left`. -/
def chain (ts : Descent) (l : Level) (left : Expr) : Step Expr := do
  match ← advanceOn ts l.joins with
  | none => return left
  | some operator =>
    let right ← ts |>.operand l
    ts |>.chain l (l.node left operator right)
partial_fixpoint

def unary (ts : Descent) : Step Expr := do
  match ← advanceOn ts Token.Kind.isUnary with
  | some operator =>
    let e ← ts |>.unary
    return .unary operator e
  | none => ts |>.primary
partial_fixpoint

def primary (ts : Descent) : Step Expr := do
  let t ← look ts
  match t.atom? with
  | some e =>
    let _ ← advance ts
    return e
  | none =>
    if t.kind = .leftParen then
      let _ ← advance ts
      let inner ← ts |>.expression
      let _ ← demand ts .rightParen .parenAfterExpression
      return .grouping inner
    else
      throw ⟨t, .missing .expression⟩
partial_fixpoint

end

/-! ## Statements -/

/-- Goes on after a fault until a semicolon is passed or a statement starts. -/
def skip (ts : Descent) : Walk Unit := do
  let t ← look ts
  let previous ← previous? ts
  if t.kind = .eof ∨ previous.any (·.kind = .semicolon) ∨ t.kind.startsStatement then
    return
  else
    let _ ← advance ts
    ts |>.skip
partial_fixpoint

/-- Finds the next statement after a fault, behind the blamed token. -/
def synchronize (ts : Descent) : Walk Unit := do
  let _ ← advance ts
  ts |>.skip

/-- An expression with a semicolon behind it. -/
def terminated (ts : Descent) (missing : Expected) : Step Expr := do
  let e ← ts |>.expression
  let _ ← demand ts .semicolon missing
  return e

/-- The rule behind `if`, up to the branches. -/
def condition (ts : Descent) : Step Expr := do
  let _ ← demand ts .leftParen .parenAfterIf
  let e ← ts |>.expression
  let _ ← demand ts .rightParen .parenAfterCondition
  return e

/-- The rule behind `var`. -/
def variableDeclaration (ts : Descent) : Step Stmt := do
  let name ← demand ts .identifier .variableName
  match ← advanceOn ts (· = .equal) with
  | some _ =>
    let e ← ts |>.terminated .semicolonAfterDeclaration
    return .declare name (some e)
  | none =>
    let _ ← demand ts .semicolon .semicolonAfterDeclaration
    return .declare name none

mutual

/-- A declaration with a fault is dropped. -/
def declaration (ts : Descent) : Walk (Option Stmt) := do
  let outcome ← ExceptT.run do
    match ← advanceOn ts (· = .kwVar) with
    | some _ => ts |>.variableDeclaration
    | none => ts |>.statement
  match outcome with
  | .ok s => return some s
  | .error e =>
    report e
    ts |>.synchronize
    return none
partial_fixpoint

/-- Declarations up to the end, or, in a block, up to its closing brace. -/
def declarations (ts : Descent) (inBlock : Bool) : Walk (List Stmt) := do
  let t ← look ts
  if t.kind = .eof ∨ (inBlock ∧ t.kind = .rightBrace) then
    return []
  else
    let s ← ts |>.declaration
    let ss ← ts |>.declarations inBlock
    return s.toList ++ ss
partial_fixpoint

def statement (ts : Descent) : Step Stmt := do
  match ← advanceOn ts (· = .kwIf) with
  | some _ => ts |>.conditional
  | none =>
  match ← advanceOn ts (· = .kwPrint) with
  | some _ =>
    let e ← ts |>.terminated .semicolonAfterValue
    return .print e
  | none =>
  match ← advanceOn ts (· = .leftBrace) with
  | some _ =>
    let ss ← ts |>.block
    return .block ss
  | none =>
    let e ← ts |>.terminated .semicolonAfterExpression
    return .expression e
partial_fixpoint

/-- The rule behind `if`. -/
def conditional (ts : Descent) : Step Stmt := do
  let e ← ts |>.condition
  let thenBranch ← ts |>.statement
  match ← advanceOn ts (· = .kwElse) with
  | some _ =>
    let elseBranch ← ts |>.statement
    return .ifElse e thenBranch elseBranch
  | none => return .ifThen e thenBranch
partial_fixpoint

/-- The rule behind an opening brace. Its declarations do not fail. -/
def block (ts : Descent) : Step (List Stmt) := show Walk (Except ParseError (List Stmt)) from do
  let ss ← ts |>.declarations true
  let closing ← (demand ts .rightBrace .braceAfterBlock).run
  return closing.map fun _ => ss
partial_fixpoint

end

/-- Reads a program, from the first token on. -/
def program (ts : Descent) : Option Program := do
  let (statements, c) ← (declarations ts false).run ⟨0, []⟩
  return ⟨statements, c.reports⟩

end Descent

end Lox
