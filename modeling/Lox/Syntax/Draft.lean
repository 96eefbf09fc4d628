import Lox.Syntax.Grammar

set_option autoImplicit false

/-! # Drafts

A draft is the tree that tokens have before it is asked what stands on the left of an equals sign.
In a draft an assignment has two sides, and any expression of the loosest level may be the left one:

    assignment → level ( "=" assignment )?

The grammar of drafts (`Grammar.Drafts`, `Grammar.DraftsAll`) does not say to which of several `if`s
an `else` belongs either; `DraftStmt.NearestElse` does.

Settling a draft keeps the assignments to names. Of any other assignment only the left side remains,
and its equals sign is misplaced.
-/

namespace Lox

/-! ## Expressions -/

/-- The draft of an expression. -/
inductive Draft where
  | literal (value : Value)
  | grouping (inner : Draft)
  | unary (operator : Token) (operand : Draft)
  | join (level : Level) (left : Draft) (operator : Token) (right : Draft)
  | var (name : Token)
  | assign (target : Draft) (equals : Token) (value : Draft)

namespace Draft

/-- The name, if the draft is a lone name. -/
def name? : Draft → Option Token
  | var name => some name
  | _ => none

/-- The expression that remains when all assignments whose left side is not a lone name are
replaced by their left sides. -/
def settled : Draft → Expr
  | literal value => .literal value
  | grouping inner => .grouping inner.settled
  | unary operator operand => .unary operator operand.settled
  | join _ left operator right => Grammar.tree left.settled operator right.settled
  | var name => .var name
  | assign target _ value =>
    match target.name? with
    | some name => .assign name value.settled
    | none => target.settled

/-- The equals signs of the assignments whose left side is not a lone name, from left to right. -/
def misplaced : Draft → List Token
  | literal _ | var _ => []
  | grouping inner => inner.misplaced
  | unary _ operand => operand.misplaced
  | join _ left _ right => left.misplaced ++ right.misplaced
  | assign target equals value =>
    target.misplaced ++ (if target.name?.isSome then [] else [equals]) ++ value.misplaced

end Draft

/-! ## Statements -/

/-- The draft of a statement. -/
inductive DraftStmt where
  | expression (d : Draft)
  | print (d : Draft)
  | declare (name : Token) (initializer : Option Draft)
  | block (body : List DraftStmt)
  | ifThen (condition : Draft) (thenBranch : DraftStmt)
  | ifElse (condition : Draft) (thenBranch elseBranch : DraftStmt)

namespace DraftStmt

mutual

/-- The statement with all expressions settled. -/
def settled : DraftStmt → Stmt
  | expression d => .expression d.settled
  | print d => .print d.settled
  | declare name initializer => .declare name (initializer.map Draft.settled)
  | block body => .block (settledAll body)
  | ifThen condition thenBranch => .ifThen condition.settled thenBranch.settled
  | ifElse condition thenBranch elseBranch =>
    .ifElse condition.settled thenBranch.settled elseBranch.settled

/-- The statements with all expressions settled. -/
def settledAll : List DraftStmt → List Stmt
  | [] => []
  | s :: ss => s.settled :: settledAll ss

end

mutual

/-- The misplaced equals signs in the expressions, from left to right. -/
def misplaced : DraftStmt → List Token
  | expression d | print d => d.misplaced
  | declare _ initializer => initializer.elim [] Draft.misplaced
  | block body => misplacedAll body
  | ifThen condition thenBranch => condition.misplaced ++ thenBranch.misplaced
  | ifElse condition thenBranch elseBranch =>
    condition.misplaced ++ (thenBranch.misplaced ++ elseBranch.misplaced)

/-- The misplaced equals signs in all the expressions, from left to right. -/
def misplacedAll : List DraftStmt → List Token
  | [] => []
  | s :: ss => s.misplaced ++ misplacedAll ss

end

/-- Whether the last `if` of the statement has no `else`. -/
def takesElse : DraftStmt → Bool
  | ifThen _ _ => true
  | ifElse _ _ elseBranch => elseBranch.takesElse
  | _ => false

mutual

/-- Every `else` in the statement belongs to the nearest `if` that has none yet. -/
def NearestElse : DraftStmt → Prop
  | expression _ | print _ | declare _ _ => True
  | block body => NearestElseAll body
  | ifThen _ thenBranch => thenBranch.NearestElse
  | ifElse _ thenBranch elseBranch =>
    thenBranch.takesElse = false ∧ thenBranch.NearestElse ∧ elseBranch.NearestElse

/-- Every `else` in the statements belongs to the nearest `if` that has none yet. -/
def NearestElseAll : List DraftStmt → Prop
  | [] => True
  | s :: ss => s.NearestElse ∧ NearestElseAll ss

end

end DraftStmt

/-! ## The grammar -/

namespace Grammar

/-- `Drafts r ts d`: by the rule `r`, the tokens `ts` are the expression `d`. -/
inductive Drafts : Rule → List Token → Draft → Prop
  | loosest {ts : List Token} {d : Draft} (h : Drafts (.level .disjunction) ts d) :
      Drafts .expression ts d
  | assign {ts us : List Token} {equals : Token} {target value : Draft}
      (ht : Drafts (.level .disjunction) ts target) (he : equals.kind = .equal)
      (h : Drafts .expression us value) :
      Drafts .expression (ts ++ equals :: us) (.assign target equals value)
  | single {l : Level} {ts : List Token} {d : Draft} (h : Drafts (operand l) ts d) :
      Drafts (.level l) ts d
  | join {l : Level} {ts us : List Token} {operator : Token} {left right : Draft}
      (hl : Drafts (.level l) ts left) (ho : Joins l operator.kind)
      (hr : Drafts (operand l) us right) :
      Drafts (.level l) (ts ++ operator :: us) (.join l left operator right)
  | unary {operator : Token} {ts : List Token} {d : Draft}
      (ho : operator.kind = .bang ∨ operator.kind = .minus) (h : Drafts .unary ts d) :
      Drafts .unary (operator :: ts) (.unary operator d)
  | primary {ts : List Token} {d : Draft} (h : Drafts .primary ts d) : Drafts .unary ts d
  | literal {t : Token} {value : Value} (h : Atom t (.literal value)) :
      Drafts .primary [t] (.literal value)
  | name {t : Token} (h : t.kind = .identifier) : Drafts .primary [t] (.var t)
  | grouping {opening closing : Token} {ts : List Token} {d : Draft}
      (ho : opening.kind = .leftParen) (h : Drafts .expression ts d)
      (hc : closing.kind = .rightParen) :
      Drafts .primary (opening :: (ts ++ [closing])) (.grouping d)

/-- `DraftsAll r ts ss`: by the rule `r`, the tokens `ts` are the statements `ss`, of which there
is exactly one unless `r` is the rule for several declarations. -/
inductive DraftsAll : Sentence → List Token → List DraftStmt → Prop
  | nil : DraftsAll .declarations [] []
  | cons {ts us : List Token} {s : DraftStmt} {ss : List DraftStmt}
      (h : DraftsAll .declaration ts [s]) (hs : DraftsAll .declarations us ss) :
      DraftsAll .declarations (ts ++ us) (s :: ss)
  | declare {keyword name semicolon : Token} (hk : keyword.kind = .kwVar)
      (hn : name.kind = .identifier) (hs : semicolon.kind = .semicolon) :
      DraftsAll .declaration [keyword, name, semicolon] [.declare name none]
  | declareValue {keyword name equals semicolon : Token} {ts : List Token} {d : Draft}
      (hk : keyword.kind = .kwVar) (hn : name.kind = .identifier) (he : equals.kind = .equal)
      (h : Drafts .expression ts d) (hs : semicolon.kind = .semicolon) :
      DraftsAll .declaration (keyword :: name :: equals :: (ts ++ [semicolon]))
        [.declare name (some d)]
  | statement {ts : List Token} {s : DraftStmt} (h : DraftsAll .statement ts [s]) :
      DraftsAll .declaration ts [s]
  | expression {ts : List Token} {semicolon : Token} {d : Draft} (h : Drafts .expression ts d)
      (hs : semicolon.kind = .semicolon) :
      DraftsAll .statement (ts ++ [semicolon]) [.expression d]
  | print {keyword semicolon : Token} {ts : List Token} {d : Draft}
      (hk : keyword.kind = .kwPrint) (h : Drafts .expression ts d)
      (hs : semicolon.kind = .semicolon) :
      DraftsAll .statement (keyword :: (ts ++ [semicolon])) [.print d]
  | block {opening closing : Token} {ts : List Token} {ss : List DraftStmt}
      (ho : opening.kind = .leftBrace) (h : DraftsAll .declarations ts ss)
      (hc : closing.kind = .rightBrace) :
      DraftsAll .statement (opening :: (ts ++ [closing])) [.block ss]
  | ifThen {keyword opening closing : Token} {ts us : List Token} {c : Draft} {s : DraftStmt}
      (hk : keyword.kind = .kwIf) (ho : opening.kind = .leftParen) (h : Drafts .expression ts c)
      (hc : closing.kind = .rightParen) (hs : DraftsAll .statement us [s]) :
      DraftsAll .statement (keyword :: opening :: (ts ++ closing :: us)) [.ifThen c s]
  | ifElse {keyword opening closing other : Token} {ts us vs : List Token} {c : Draft}
      {s t : DraftStmt} (hk : keyword.kind = .kwIf) (ho : opening.kind = .leftParen)
      (h : Drafts .expression ts c) (hc : closing.kind = .rightParen)
      (hs : DraftsAll .statement us [s]) (hw : other.kind = .kwElse)
      (ht : DraftsAll .statement vs [t]) :
      DraftsAll .statement (keyword :: opening :: (ts ++ closing :: (us ++ other :: vs)))
        [.ifElse c s t]

/-- The tokens are a program, if any expression may stand on the left of an assignment and an
`else` may belong to any `if` before it. -/
def HasDraft (ts : List Token) : Prop := ∃ ss, DraftsAll .declarations ts ss

end Grammar

end Lox
