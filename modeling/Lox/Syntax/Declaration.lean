import Lox.Syntax.Expression

set_option autoImplicit false

/-! # Reading declarations and statements

The rules for declarations and statements:

    declaration  → variable | statement
    variable     → "var" name ( "=" expression )? ";"
    statement    → "if" "(" expression ")" statement ( "else" statement )?
                 | "print" expression ";"
                 | block
                 | expression ";"
    block        → "{" declaration* "}"

An `else` belongs to the nearest `if` that has none yet.

A declaration that is rejected is dropped and its fault reported. Reading goes on behind the next
semicolon or before the next word that starts a statement, whichever comes first, but not before
the token that follows the blamed one. This holds inside blocks as well, so a block keeps the
declarations around a faulty one.
-/

namespace Lox

/-- Where reading goes on after a fault at the first of the tokens. -/
def resume : List Token → List Token
  | [] => []
  | t :: ts =>
    if t.kind = .semicolon ∨ ∃ u ∈ ts.head?, u.kind.startsStatement then ts else resume ts

/-- Going on after a fault passes the blamed token. -/
theorem length_resume_le (ts : List Token) : (resume ts).length ≤ ts.length - 1 := by
  induction ts with
  | nil => exact Nat.le_refl _
  | cons t ts ih =>
    rw [resume]
    split
    · exact Nat.le_refl _
    · simp only [List.length_cons]
      omega

/-- What became of a declaration: a statement unless it was dropped, the tokens after it, and the
faults reported in it. -/
structure Declared (n : Nat) where
  statement : Option Stmt
  rest : List Token
  reports : List ParseError
  shorter : rest.length < n

/-- Declarations up to some point, the tokens after them, and the faults reported in them. -/
structure Declarations (n : Nat) where
  statements : List Stmt
  rest : List Token
  reports : List ParseError
  noLonger : rest.length ≤ n

/-- Ends a declaration. A rejected one is dropped; its fault is blamed on the token at which it was
rejected, `eof` standing for the end of the tokens. -/
def Parsed.declared (eof : Token) {n : Nat} (hn : 0 < n) : Parsed Stmt n → Declared n
  | .accept s rest reports shorter => ⟨some s, rest, reports, shorter⟩
  | .reject missing rest reports noLonger =>
    ⟨none, resume rest, reports ++ [⟨rest.headD eof, .missing missing⟩], by
      have := length_resume_le rest
      omega⟩

namespace Parse

/-- An expression with a semicolon behind it. -/
def terminated (missing : Expected) (ts : List Token) : Parsed Expr ts.length :=
  (expression ts).andThen fun e rest h =>
    ((expect .semicolon missing rest).map fun _ => e).within (le_of_shorter h)

/-- The rule on the tokens after the name of a variable. -/
def initializer (name : Token) (ts : List Token) : Parsed Stmt ts.length :=
  match ts with
  | [] => (expect .semicolon .semicolonAfterDeclaration []).map fun _ => .declare name none
  | t :: rest =>
    if t.kind = .equal then
      ((terminated .semicolonAfterDeclaration rest).map fun e => .declare name (some e)).within
        (length_le_cons t rest)
    else
      (expect .semicolon .semicolonAfterDeclaration (t :: rest)).map fun _ => .declare name none

/-- The rule on the tokens after `var`. -/
def variableDeclaration (ts : List Token) : Parsed Stmt ts.length :=
  (expect .identifier .variableName ts).andThen fun name rest h =>
    (initializer name rest).within (le_of_shorter h)

/-- The rule on the tokens after `if`, up to the branches. -/
def condition (ts : List Token) : Parsed Expr ts.length :=
  (expect .leftParen .parenAfterIf ts).andThen fun _ rest h =>
    ((expression rest).andThen fun e rest h =>
      ((expect .rightParen .parenAfterCondition rest).map fun _ => e).within
        (le_of_shorter h)).within (le_of_shorter h)

variable (eof : Token)

mutual

/-- The rule on the tokens `t :: ts`. -/
def declaration (t : Token) (ts : List Token) : Declared (ts.length + 1) :=
  if t.kind = .kwVar then
    ((variableDeclaration ts).within (Nat.le_succ _)).declared eof (Nat.zero_lt_succ _)
  else Parsed.declared eof (Nat.zero_lt_succ ts.length) (statement (t :: ts))
termination_by (ts.length + 1) * 4 + 2
decreasing_by
  simp only [List.length_cons]
  omega

/-- Declarations up to the end of the tokens, or, in a block, up to its closing brace. -/
def declarations (inBlock : Bool) (ts : List Token) : Declarations ts.length :=
  match ts with
  | [] => ⟨[], [], [], Nat.le_refl _⟩
  | t :: ts =>
    if inBlock ∧ t.kind = .rightBrace then ⟨[], t :: ts, [], Nat.le_refl _⟩
    else
      match declaration t ts with
      | ⟨statement, rest, reports, shorter⟩ =>
        match declarations inBlock rest with
        | ⟨statements, rest', reports', noLonger⟩ =>
          ⟨statement.toList ++ statements, rest', reports ++ reports', by
            simp only [List.length_cons]
            omega⟩
termination_by ts.length * 4 + 3
decreasing_by
  · simp only [List.length_cons]
    omega
  · simp only [List.length_cons]
    omega

/-- The rule for statements. -/
def statement (ts : List Token) : Parsed Stmt ts.length :=
  match ts with
  | [] => .reject .expression [] [] (Nat.le_refl _)
  | t :: rest =>
    if t.kind = .kwIf then
      ((condition rest).andThen fun e rest h => (branches e rest).within (le_of_shorter h)).within
        (Nat.le_succ _)
    else if t.kind = .kwPrint then
      ((terminated .semicolonAfterValue rest).map .print).within (Nat.le_succ _)
    else if t.kind = .leftBrace then
      (block rest).within (Nat.le_succ _)
    else (terminated .semicolonAfterExpression (t :: rest)).map .expression
termination_by ts.length * 4 + 1
decreasing_by
  · simp only [List.length_cons]
    omega
  · simp only [List.length_cons]
    omega

/-- The rule on the tokens after a condition. -/
def branches (condition : Expr) (ts : List Token) : Parsed Stmt ts.length :=
  (statement ts).andThen fun thenBranch rest h =>
    match rest with
    | [] => .accept (.ifThen condition thenBranch) [] [] h
    | t :: rest' =>
      if t.kind = .kwElse then
        ((statement rest').map (.ifElse condition thenBranch)).within
          (Nat.le_trans (Nat.le_succ _) (le_of_shorter h))
      else .accept (.ifThen condition thenBranch) (t :: rest') [] h
termination_by ts.length * 4 + 2
decreasing_by
  · omega
  · simp only [List.length_cons] at h
    omega

/-- The rule on the tokens after an opening brace. -/
def block (ts : List Token) : Parsed Stmt ts.length :=
  match declarations true ts with
  | ⟨statements, rest, reports, noLonger⟩ =>
    ((((expect .rightBrace .braceAfterBlock rest).map fun _ => .block statements).within
      noLonger).after reports)
termination_by ts.length * 4 + 4
decreasing_by omega

end

end Parse

end Lox
