import Lox.Syntax.Level

set_option autoImplicit false

/-! # The grammar

The grammar of the language as a relation between lists of tokens and trees. It is written down
without any order in which tokens are read, and says nothing about lists that have no tree.

An assignment may have any expression of the loosest level on its left. The relation collects the
equals signs of those assignments whose left side is not a lone name. A list of tokens is a program
in the strict sense if it has a derivation that collects none (`Grammar.Strict`).

An `else` belongs to the nearest `if` that has none yet: the branch before an `else` must not end
in an `if` that could take it.
-/

namespace Lox

/-- Whether an `else` right after the statement would belong to an `if` inside it. -/
def Stmt.takesElse : Stmt → Bool
  | ifThen _ _ => true
  | ifElse _ _ elseBranch => elseBranch.takesElse
  | _ => false

/-- Whether the expression is a lone name. -/
def Expr.isName : Expr → Bool
  | var _ => true
  | _ => false

namespace Grammar

/-- The value of a literal that a token carries. -/
inductive LiteralValue : Token.Literal → Value → Prop
  | number {x : Float} : LiteralValue (.number x) (.number x)
  | string {s : String} : LiteralValue (.string s) (.string s)

/-- The expressions of one token. A number or string is the value of the literal that it carries. -/
inductive Atom : Token → Expr → Prop
  | false {t : Token} (h : t.kind = .kwFalse) : Atom t (.literal (.boolean false))
  | true {t : Token} (h : t.kind = .kwTrue) : Atom t (.literal (.boolean true))
  | nil {t : Token} (h : t.kind = .kwNil) : Atom t (.literal .nil)
  | number {t : Token} {l : Token.Literal} {v : Value} (h : t.kind = .number)
      (hl : t.literal = some l) (hv : LiteralValue l v) : Atom t (.literal v)
  | string {t : Token} {l : Token.Literal} {v : Value} (h : t.kind = .string)
      (hl : t.literal = some l) (hv : LiteralValue l v) : Atom t (.literal v)
  | name {t : Token} (h : t.kind = .identifier) : Atom t (.var t)

/-- The rules for expressions. -/
inductive Rule where
  | expression
  | level (l : Level)
  | unary
  | primary
deriving DecidableEq

/-- The rule for the operands of a level. -/
def operand : Level → Rule
  | .disjunction => .level .conjunction
  | .conjunction => .level .equality
  | .equality => .level .comparison
  | .comparison => .level .term
  | .term => .level .factor
  | .factor => .unary

/-- The operators of the levels. -/
inductive Joins : Level → Token.Kind → Prop
  | or : Joins .disjunction .kwOr
  | and : Joins .conjunction .kwAnd
  | unequal : Joins .equality .bangEqual
  | equal : Joins .equality .equalEqual
  | greater : Joins .comparison .greater
  | greaterEqual : Joins .comparison .greaterEqual
  | less : Joins .comparison .less
  | lessEqual : Joins .comparison .lessEqual
  | minus : Joins .term .minus
  | plus : Joins .term .plus
  | slash : Joins .factor .slash
  | star : Joins .factor .star

/-- The tree of an operator between two operands. -/
def tree (left : Expr) (operator : Token) (right : Expr) : Expr :=
  match operator.kind with
  | .kwAnd | .kwOr => .logical left operator right
  | _ => .binary left operator right

/-- `Expression r ts e bad`: by the rule `r`, the tokens `ts` are the expression `e`, where `bad`
are the equals signs of the assignments whose left side is not a name. -/
inductive Expression : Rule → List Token → Expr → List Token → Prop
  | loosest {ts : List Token} {e : Expr} {bad : List Token}
      (h : Expression (.level .disjunction) ts e bad) : Expression .expression ts e bad
  | assign {name equals : Token} {ts : List Token} {value : Expr} {bad : List Token}
      (hn : name.kind = .identifier) (he : equals.kind = .equal)
      (h : Expression .expression ts value bad) :
      Expression .expression (name :: equals :: ts) (.assign name value) bad
  | misassign {ts us : List Token} {equals : Token} {target value : Expr} {bad bad' : List Token}
      (ht : Expression (.level .disjunction) ts target bad) (hn : target.isName = false)
      (he : equals.kind = .equal) (h : Expression .expression us value bad') :
      Expression .expression (ts ++ equals :: us) target (bad ++ bad' ++ [equals])
  | single {l : Level} {ts : List Token} {e : Expr} {bad : List Token}
      (h : Expression (operand l) ts e bad) : Expression (.level l) ts e bad
  | join {l : Level} {ts us : List Token} {operator : Token} {left right : Expr}
      {bad bad' : List Token} (hl : Expression (.level l) ts left bad) (ho : Joins l operator.kind)
      (hr : Expression (operand l) us right bad') :
      Expression (.level l) (ts ++ operator :: us) (tree left operator right) (bad ++ bad')
  | unary {operator : Token} {ts : List Token} {e : Expr} {bad : List Token}
      (ho : operator.kind = .bang ∨ operator.kind = .minus) (h : Expression .unary ts e bad) :
      Expression .unary (operator :: ts) (.unary operator e) bad
  | primary {ts : List Token} {e : Expr} {bad : List Token} (h : Expression .primary ts e bad) :
      Expression .unary ts e bad
  | atom {t : Token} {e : Expr} (h : Atom t e) : Expression .primary [t] e []
  | grouping {opening closing : Token} {ts : List Token} {e : Expr} {bad : List Token}
      (ho : opening.kind = .leftParen) (h : Expression .expression ts e bad)
      (hc : closing.kind = .rightParen) :
      Expression .primary (opening :: (ts ++ [closing])) (.grouping e) bad

/-- The rules for statements. -/
inductive Sentence where
  | declaration
  | statement
  | declarations
deriving DecidableEq

/-- `Statements r ts ss bad`: by the rule `r`, the tokens `ts` are the statements `ss`, of which
there is exactly one unless `r` is the rule for several declarations. -/
inductive Statements : Sentence → List Token → List Stmt → List Token → Prop
  | nil : Statements .declarations [] [] []
  | cons {ts us : List Token} {s : Stmt} {ss : List Stmt} {bad bad' : List Token}
      (h : Statements .declaration ts [s] bad) (hs : Statements .declarations us ss bad') :
      Statements .declarations (ts ++ us) (s :: ss) (bad ++ bad')
  | declare {keyword name semicolon : Token} (hk : keyword.kind = .kwVar)
      (hn : name.kind = .identifier) (hs : semicolon.kind = .semicolon) :
      Statements .declaration [keyword, name, semicolon] [.declare name none] []
  | declareValue {keyword name equals semicolon : Token} {ts : List Token} {e : Expr}
      {bad : List Token} (hk : keyword.kind = .kwVar) (hn : name.kind = .identifier)
      (he : equals.kind = .equal) (h : Expression .expression ts e bad)
      (hs : semicolon.kind = .semicolon) :
      Statements .declaration (keyword :: name :: equals :: (ts ++ [semicolon]))
        [.declare name (some e)] bad
  | statement {ts : List Token} {s : Stmt} {bad : List Token}
      (h : Statements .statement ts [s] bad) : Statements .declaration ts [s] bad
  | expression {ts : List Token} {semicolon : Token} {e : Expr} {bad : List Token}
      (h : Expression .expression ts e bad) (hs : semicolon.kind = .semicolon) :
      Statements .statement (ts ++ [semicolon]) [.expression e] bad
  | print {keyword semicolon : Token} {ts : List Token} {e : Expr} {bad : List Token}
      (hk : keyword.kind = .kwPrint) (h : Expression .expression ts e bad)
      (hs : semicolon.kind = .semicolon) :
      Statements .statement (keyword :: (ts ++ [semicolon])) [.print e] bad
  | block {opening closing : Token} {ts : List Token} {ss : List Stmt} {bad : List Token}
      (ho : opening.kind = .leftBrace) (h : Statements .declarations ts ss bad)
      (hc : closing.kind = .rightBrace) :
      Statements .statement (opening :: (ts ++ [closing])) [.block ss] bad
  | ifThen {keyword opening closing : Token} {ts us : List Token} {e : Expr} {s : Stmt}
      {bad bad' : List Token} (hk : keyword.kind = .kwIf) (ho : opening.kind = .leftParen)
      (h : Expression .expression ts e bad) (hc : closing.kind = .rightParen)
      (hs : Statements .statement us [s] bad') :
      Statements .statement (keyword :: opening :: (ts ++ closing :: us)) [.ifThen e s]
        (bad ++ bad')
  | ifElse {keyword opening closing other : Token} {ts us vs : List Token} {e : Expr} {s t : Stmt}
      {bad bad' bad'' : List Token} (hk : keyword.kind = .kwIf) (ho : opening.kind = .leftParen)
      (h : Expression .expression ts e bad) (hc : closing.kind = .rightParen)
      (hs : Statements .statement us [s] bad') (hn : s.takesElse = false)
      (hw : other.kind = .kwElse) (ht : Statements .statement vs [t] bad'') :
      Statements .statement (keyword :: opening :: (ts ++ closing :: (us ++ other :: vs)))
        [.ifElse e s t] (bad ++ bad' ++ bad'')

/-- The tokens are the program `ss`, and every assignment in it has a name on its left. -/
def Strict (ts : List Token) (ss : List Stmt) : Prop := Statements .declarations ts ss []

/-- The tokens are a program, if any expression may stand on the left of an assignment. -/
def IsProgram (ts : List Token) : Prop := ∃ ss bad, Statements .declarations ts ss bad

end Grammar

end Lox
