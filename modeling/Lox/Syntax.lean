import Lox.Value

set_option autoImplicit false

/-! # Syntax trees

Expressions and statements. Operators and names are kept as the tokens they were read from, because
an error at run time blames such a token. Nothing here demands that the token in an operator node
is an operator of that node; `Expr.Fits` and `Stmt.Fits` say when it is.
-/

namespace Lox

/-- An expression. -/
inductive Expr where
  | literal (value : Value)
  | grouping (inner : Expr)
  | unary (operator : Token) (operand : Expr)
  | binary (left : Expr) (operator : Token) (right : Expr)
  /-- A conjunction or disjunction; the right side is evaluated only if the left one does not
  decide. -/
  | logical (left : Expr) (operator : Token) (right : Expr)
  | var (name : Token)
  | assign (name : Token) (value : Expr)
deriving DecidableEq

/-- A statement. A variable that is declared without a value has the value `nil`. -/
inductive Stmt where
  | expression (e : Expr)
  | print (e : Expr)
  | declare (name : Token) (initializer : Option Expr)
  | block (body : List Stmt)
  | ifThen (condition : Expr) (thenBranch : Stmt)
  | ifElse (condition : Expr) (thenBranch elseBranch : Stmt)

/-! ## Equality of statements -/

namespace Stmt

mutual

/-- Compares statements. -/
def same : Stmt → Stmt → Bool
  | expression e, expression f => e = f
  | print e, print f => e = f
  | declare n i, declare m j => n = m ∧ i = j
  | block b, block c => sameAll b c
  | ifThen c t, ifThen d u => c = d ∧ t.same u
  | ifElse c t e, ifElse d u f => c = d ∧ t.same u ∧ e.same f
  | _, _ => false

/-- Compares lists of statements, place by place. -/
def sameAll : List Stmt → List Stmt → Bool
  | [], [] => true
  | a :: as, b :: bs => a.same b && sameAll as bs
  | _, _ => false

end

mutual

theorem same_iff_eq (a b : Stmt) : a.same b ↔ a = b := by
  cases a with
  | expression e => cases b <;> simp [same]
  | print e => cases b <;> simp [same]
  | declare n i => cases b <;> simp [same]
  | block body => cases b <;> simp [same, sameAll_iff_eq body]
  | ifThen c t => cases b <;> simp [same, same_iff_eq t]
  | ifElse c t e => cases b <;> simp [same, same_iff_eq t, same_iff_eq e]

theorem sameAll_iff_eq (as bs : List Stmt) : sameAll as bs ↔ as = bs := by
  cases as with
  | nil => cases bs <;> simp [sameAll]
  | cons a as => cases bs <;> simp [sameAll, same_iff_eq a, sameAll_iff_eq as]

end

instance : DecidableEq Stmt := fun a b => decidable_of_iff _ (same_iff_eq a b)

end Stmt

/-! ## Operators that fit -/

namespace Token.Kind

/-- The operators that stand before one operand. -/
def isUnary : Kind → Bool
  | bang | minus => true
  | _ => false

/-- The operators between two operands that are both evaluated. -/
def isBinary : Kind → Bool
  | bangEqual | equalEqual | greater | greaterEqual | less | lessEqual | minus | plus | slash
  | star => true
  | _ => false

/-- The operators whose right operand may be left out. -/
def isLogical : Kind → Bool
  | kwAnd | kwOr => true
  | _ => false

end Token.Kind

/-- Every operator in the expression belongs to the node it stands in. -/
def Expr.Fits : Expr → Prop
  | literal _ | var _ => True
  | grouping inner => inner.Fits
  | unary operator operand => operator.kind.isUnary ∧ operand.Fits
  | binary left operator right => operator.kind.isBinary ∧ left.Fits ∧ right.Fits
  | logical left operator right => operator.kind.isLogical ∧ left.Fits ∧ right.Fits
  | assign _ value => value.Fits

namespace Stmt

mutual

/-- Every operator in the statement belongs to the node it stands in. -/
def Fits : Stmt → Prop
  | expression e | print e => e.Fits
  | declare _ initializer => ∀ e ∈ initializer, e.Fits
  | block body => AllFit body
  | ifThen condition thenBranch => condition.Fits ∧ thenBranch.Fits
  | ifElse condition thenBranch elseBranch =>
    condition.Fits ∧ thenBranch.Fits ∧ elseBranch.Fits

/-- Every operator in the statements belongs to the node it stands in. -/
def AllFit : List Stmt → Prop
  | [] => True
  | s :: ss => s.Fits ∧ AllFit ss

end

end Stmt

end Lox
