import Lox.Syntax.Level
import Lox.Syntax.Parsed

set_option autoImplicit false

/-! # Reading expressions

The rules for expressions, from the loosest to the tightest:

    expression   → level ( "=" expression )?
    level        → operand ( operator operand )*     on six levels of precedence
    unary        → ( "!" | "-" ) unary | primary
    primary      → literal | name | "(" expression ")"

The operators of one level associate to the left, assignment to the right. The left side of an
assignment is read as an expression of the loosest level. If it then is not a lone name, this is
reported, and the left side is what remains of the assignment.
-/

namespace Lox

namespace Token

/-- The expression that a token is on its own. A string or number has to carry its value. -/
def atom? (t : Token) : Option Expr :=
  match t.kind with
  | .kwFalse => some (.literal (.boolean false))
  | .kwTrue => some (.literal (.boolean true))
  | .kwNil => some (.literal .nil)
  | .number | .string => t.literal.map fun l => .literal (.ofLiteral l)
  | .identifier => some (.var t)
  | _ => none

end Token

namespace Parse

/-- Completes an assignment, where `equals` is the token between its sides. -/
def assign {n : Nat} (target : Expr) (equals : Token) (value : Expr) (rest : List Token)
    (shorter : rest.length < n) : Parsed Expr n :=
  match target with
  | .var name => .accept (.assign name value) rest [] shorter
  | _ => .accept target rest [⟨equals, .invalidTarget⟩] shorter

mutual

/-- The rule for expressions. -/
def expression (ts : List Token) : Parsed Expr ts.length :=
  (level .disjunction ts).andThen fun target rest h => (assignment target rest).within h
termination_by ts.length * 16 + 14
decreasing_by
  · simp only [Level.rank]
    omega
  · omega

/-- Goes on after the left side of what may be an assignment. -/
def assignment (target : Expr) (ts : List Token) : Parsed Expr (ts.length + 1) :=
  match ts with
  | [] => .accept target [] [] (Nat.lt_succ_self _)
  | t :: rest =>
    if t.kind = .equal then
      ((expression rest).andThen (assign target t)).within
        (Nat.le_succ_of_le (length_le_cons t rest))
    else .accept target (t :: rest) [] (Nat.lt_succ_self _)
termination_by ts.length * 16 + 15
decreasing_by
  simp only [List.length_cons]
  omega

/-- The rule for expressions of a level of precedence. -/
def level (l : Level) (ts : List Token) : Parsed Expr ts.length :=
  (operand l ts).andThen fun left rest h => (chain l left rest).within h
termination_by ts.length * 16 + (2 * l.rank + 1)
decreasing_by
  · omega
  · have := l.one_le_rank
    omega

/-- The rule for the operands of a level. -/
def operand (l : Level) (ts : List Token) : Parsed Expr ts.length :=
  match _h : l.tighter with
  | some m => level m ts
  | none => unary ts
termination_by ts.length * 16 + 2 * l.rank
decreasing_by
  · have := Level.rank_add_one_of_tighter _h
    omega
  · have := l.one_le_rank
    omega

/-- Goes on after the first operands of a level, which make `left`. -/
def chain (l : Level) (left : Expr) (ts : List Token) : Parsed Expr (ts.length + 1) :=
  match ts with
  | [] => .accept left [] [] (Nat.lt_succ_self _)
  | t :: rest =>
    if l.joins t.kind then
      ((operand l rest).andThen fun right rest' h =>
        (chain l (l.node left t right) rest').within h).within
          (by simp only [List.length_cons]; omega)
    else .accept left (t :: rest) [] (Nat.lt_succ_self _)
termination_by ts.length * 16 + 15
decreasing_by
  · have := l.rank_le
    simp only [List.length_cons]
    omega
  · simp only [List.length_cons]
    omega

/-- The rule for unary expressions. -/
def unary (ts : List Token) : Parsed Expr ts.length :=
  match ts with
  | [] => .reject .expression [] [] (Nat.le_refl _)
  | t :: rest =>
    if t.kind.isUnary then
      ((unary rest).map (.unary t)).within (by simp only [List.length_cons]; omega)
    else primary t rest
termination_by ts.length * 16 + 1
decreasing_by
  · simp only [List.length_cons]
    omega
  · simp only [List.length_cons]
    omega

/-- The rule on the tokens `t :: ts`. -/
def primary (t : Token) (ts : List Token) : Parsed Expr (ts.length + 1) :=
  match t.atom? with
  | some e => .accept e ts [] (Nat.lt_succ_self _)
  | none =>
    if t.kind = .leftParen then
      ((expression ts).andThen fun inner rest h =>
        ((expect .rightParen .parenAfterExpression rest).map fun _ => .grouping inner).within
          (le_of_shorter h)).within (Nat.le_succ _)
    else .reject .expression (t :: ts) [] (Nat.le_refl _)
termination_by (ts.length + 1) * 16
decreasing_by omega

end

end Parse

end Lox
