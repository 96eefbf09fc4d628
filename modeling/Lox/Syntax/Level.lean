import Lox.Syntax

set_option autoImplicit false

/-! # Levels of precedence

The operators with two operands lie on six levels, from `or` on the loosest to `/` and `*` on the
tightest. The operators of one level associate to the left, and their operands are expressions of
the next tighter level. The operands of the tightest level are unary expressions.
-/

namespace Lox

/-- A level of precedence. -/
inductive Level where
  | disjunction
  | conjunction
  | equality
  | comparison
  | term
  | factor
deriving DecidableEq

namespace Level

/-- How many levels are as tight or tighter. -/
def rank : Level → Nat
  | disjunction => 6
  | conjunction => 5
  | equality => 4
  | comparison => 3
  | term => 2
  | factor => 1

/-- The level of the operands, or none if they are unary expressions. -/
def tighter : Level → Option Level
  | disjunction => some conjunction
  | conjunction => some equality
  | equality => some comparison
  | comparison => some term
  | term => some factor
  | factor => none

/-- Whether a token of the kind `kind` is an operator of the level. -/
def joins : Level → Token.Kind → Bool
  | disjunction, kind => kind = .kwOr
  | conjunction, kind => kind = .kwAnd
  | equality, kind => kind = .bangEqual || kind = .equalEqual
  | comparison, kind =>
    kind = .greater || kind = .greaterEqual || kind = .less || kind = .lessEqual
  | term, kind => kind = .minus || kind = .plus
  | factor, kind => kind = .slash || kind = .star

/-- The tree of an operator of the level and its operands. -/
def node (level : Level) (left : Expr) (operator : Token) (right : Expr) : Expr :=
  match level with
  | disjunction | conjunction => .logical left operator right
  | _ => .binary left operator right

/-- The rank goes down by one with each tighter level. -/
theorem rank_add_one_of_tighter {l m : Level} (h : l.tighter = some m) : m.rank + 1 = l.rank := by
  cases l <;> simp only [tighter, Option.some.injEq, reduceCtorEq] at h <;> subst h <;> rfl

theorem one_le_rank (l : Level) : 1 ≤ l.rank := by cases l <;> decide

theorem rank_le (l : Level) : l.rank ≤ 6 := by cases l <;> decide

end Level

end Lox
