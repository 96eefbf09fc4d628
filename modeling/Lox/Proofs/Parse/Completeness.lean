import Lox.Proofs.Parse.Soundness

set_option autoImplicit false

/-! # What is derivable is read

Tokens with a derivation are read as the derived tree when they stand in front of others, as long
as the next token does not go on with them: `Expression.reads` for expressions and
`Statements.reads` for statements. The grammar builds a level of precedence from the right end, the
rules read it from the left. So the statement about a level is one about all ways to go on after the
derived expression (`Rule.Read`).
-/

namespace Lox

namespace Level

/-- An operator of a level stands between two operands. -/
theorem isBinary_or_isLogical {l : Level} {k : Token.Kind} (h : l.joins k) :
    (k.isBinary || k.isLogical) = true := by
  have hk := Grammar.joins_iff.mpr h
  cases hk <;> rfl

/-- No operator lies on two levels. -/
theorem eq_of_joins {l m : Level} {k : Token.Kind} (hl : l.joins k) (hm : m.joins k) : l = m := by
  have hl' := Grammar.joins_iff.mpr hl
  have hm' := Grammar.joins_iff.mpr hm
  cases hl' <;> cases hm' <;> rfl

end Level

namespace Parse

/-- Whether a token of the kind may go on with the expression before it. -/
def continuesExpr (k : Token.Kind) : Bool := k = .equal || k.isBinary || k.isLogical

theorem joins_eq_false {k : Token.Kind} (h : continuesExpr k = false) (l : Level) :
    l.joins k = false := by
  rw [Bool.eq_false_iff]
  intro hl
  rw [continuesExpr, Bool.or_assoc, Level.isBinary_or_isLogical hl, Bool.or_true] at h
  cases h

theorem nextIs_joins_eq_false {ts : List Token} (h : nextIs continuesExpr ts = false) (l : Level) :
    nextIs l.joins ts = false := by
  cases ts with
  | nil => rfl
  | cons t ts => exact joins_eq_false h l

theorem nextIs_equal_eq_false {ts : List Token} (h : nextIs continuesExpr ts = false) :
    nextIs (· = .equal) ts = false := by
  cases ts with
  | nil => rfl
  | cons t ts =>
      simp only [nextIs_cons, continuesExpr, Bool.or_eq_false_iff] at h
      exact h.1.1

/-- Whether an expression can start with a token of the kind. -/
def startsExpr : Token.Kind → Bool
  | .kwFalse | .kwTrue | .kwNil | .number | .string | .identifier | .leftParen | .bang
  | .minus => true
  | _ => false

/-- Whether a declaration can start with a token of the kind. -/
def startsDeclaration (k : Token.Kind) : Bool := startsExpr k || opensStatement k || k = .kwVar

end Parse

namespace Grammar

open Parse

/-! ## First tokens -/

theorem Atom.startsExpr {t : Token} {e : Expr} (h : Atom t e) : startsExpr t.kind := by
  cases h with
  | «false» h | «true» h | nil h | number h | string h | name h => rw [h]; rfl

theorem Expression.first {r : Rule} {ts : List Token} {e : Expr} {bad : List Token}
    (h : Expression r ts e bad) : ∃ t us, ts = t :: us ∧ startsExpr t.kind := by
  induction h with
  | loosest _ ih | single _ ih | primary _ ih => exact ih
  | assign hn _ _ => exact ⟨_, _, rfl, by rw [hn]; rfl⟩
  | misassign _ _ _ _ ih _ | join _ _ _ ih _ =>
      obtain ⟨t, us, rfl, ht⟩ := ih
      exact ⟨t, _, rfl, ht⟩
  | unary ho _ => exact ⟨_, _, rfl, by rcases ho with ho | ho <;> rw [ho] <;> rfl⟩
  | atom h => exact ⟨_, _, rfl, h.startsExpr⟩
  | grouping ho _ _ => exact ⟨_, _, rfl, by rw [ho]; rfl⟩

/-- A primary expression does not start with a unary operator. -/
theorem Expression.nextIs_isUnary {ts : List Token} {e : Expr} {bad : List Token}
    (h : Expression .primary ts e bad) (rest : List Token) :
    nextIs Token.Kind.isUnary (ts ++ rest) = false := by
  cases h with
  | atom h => cases h with
    | «false» h | «true» h | nil h | number h | string h | name h => simp [h, Token.Kind.isUnary]
  | grouping ho _ _ => simp [ho, Token.Kind.isUnary]

theorem Statements.first {r : Sentence} {ts : List Token} {ss : List Stmt} {bad : List Token}
    (h : Statements r ts ss bad) (hr : r ≠ .declarations) :
    ∃ t us, ts = t :: us ∧ startsDeclaration t.kind ∧ (r = .statement → t.kind ≠ .kwVar) := by
  induction h with
  | nil | cons => exact absurd rfl hr
  | declare hk _ _ | declareValue hk _ _ _ _ => exact ⟨_, _, rfl, by rw [hk]; rfl, by simp⟩
  | statement _ ih =>
      obtain ⟨t, us, rfl, ht, -⟩ := ih (by simp)
      exact ⟨t, us, rfl, ht, by simp⟩
  | expression h _ =>
      obtain ⟨t, us, rfl, ht⟩ := h.first
      refine ⟨t, _, rfl, by simp [startsDeclaration, ht], fun _ hk => ?_⟩
      simp [hk, startsExpr] at ht
  | print hk _ _ | ifThen hk _ _ _ _ _ | ifElse hk _ _ _ _ _ _ _ _ _ =>
      exact ⟨_, _, rfl, by rw [hk]; rfl, by simp [hk]⟩
  | block ho _ _ => exact ⟨_, _, rfl, by rw [ho]; rfl, by simp [ho]⟩

/-- Declarations in front of others do not start with a token that a declaration cannot start
with, if the others do not. -/
theorem Statements.nextIs_append {r : Sentence} {ts rest : List Token} {ss : List Stmt}
    {bad : List Token} (h : Statements r ts ss bad) {p : Token.Kind → Bool}
    (hp : ∀ k, startsDeclaration k → p k = false) (hrest : nextIs p rest = false) :
    nextIs p (ts ++ rest) = false := by
  cases r with
  | declarations =>
      cases h with
      | nil => exact hrest
      | cons h _ =>
          obtain ⟨t, us, rfl, ht, -⟩ := h.first (by simp)
          exact hp _ ht
  | declaration | statement =>
      obtain ⟨t, us, rfl, ht, -⟩ := h.first (by simp)
      exact hp _ ht

end Grammar

namespace Parse

open Grammar

/-! ## Expressions -/

/-- What the rules for expressions make of derived tokens `us` that stand in front of others. A
level goes on after the derived expression as its rule for further operands does. -/
def Rule.Read : Rule → List Token → Expr → List Token → Prop
  | .expression, us, e, bad =>
    ∀ rest, nextIs continuesExpr rest = false →
      ReadsExpr .expression (us ++ rest) (.ok e) rest (bad.map invalidTarget)
  | .level l, us, e, bad =>
    ∀ rest o rest' reports, (∀ m : Level, m.rank < l.rank → nextIs m.joins rest = false) →
      ReadsExpr (.chain l e) rest o rest' reports →
        ReadsExpr (.level l) (us ++ rest) o rest' (bad.map invalidTarget ++ reports)
  | .unary, us, e, bad => ∀ rest, ReadsExpr .unary (us ++ rest) (.ok e) rest (bad.map invalidTarget)
  | .primary, us, e, bad =>
    ∀ rest, ReadsExpr .primary (us ++ rest) (.ok e) rest (bad.map invalidTarget)

/-- An operand ends where no tighter operator goes on. -/
theorem Rule.Read.operand {l : Level} {us rest : List Token} {e : Expr} {bad : List Token}
    (h : Rule.Read (Grammar.operand l) us e bad)
    (hn : ∀ m : Level, m.rank < l.rank → nextIs m.joins rest = false) :
    ReadsExpr (.operand l) (us ++ rest) (.ok e) rest (bad.map invalidTarget) := by
  cases hm : l.tighter with
  | none =>
      rw [operand_eq_unary hm] at h
      exact .tightest hm (h rest)
  | some m =>
      have hlt := Level.rank_add_one_of_tighter hm
      rw [operand_eq_level hm] at h
      have hend : ReadsExpr (.chain m e) rest (.ok e) rest [] := .chainEnd (hn m (by omega))
      have hread := h rest (.ok e) rest [] (fun k hk => hn k (by omega)) hend
      exact .tighter hm (by simpa using hread)

/-- Derived tokens are read as the derived expression. -/
theorem reads_of_expression {r : Rule} {us : List Token} {e : Expr} {bad : List Token}
    (h : Expression r us e bad) : Rule.Read r us e bad := by
  induction h with
  | loosest _ ih =>
      intro rest hn
      -- the next token is no operator, so every level ends here, and it is no equals sign
      have hend := ih rest _ rest [] (fun m _ => nextIs_joins_eq_false hn m)
        (.chainEnd (nextIs_joins_eq_false hn _))
      have hread := ReadsExpr.expression hend (.noEquals (nextIs_equal_eq_false hn))
      simpa using hread
  | @assign name equals us value bad hname he _ ih =>
      intro rest hn
      have hunary : ReadsExpr .unary (name :: equals :: (us ++ rest)) (.ok (.var name))
          (equals :: (us ++ rest)) [] :=
        .primary (by simp [hname, Token.Kind.isUnary]) (.atom (by simp [Token.atom?, hname]))
      -- an equals sign is no operator of any level, so the target is the name alone
      have htarget : ReadsExpr (.level .disjunction) (name :: equals :: (us ++ rest))
          (.ok (.var name)) (equals :: (us ++ rest)) [] :=
        hunary.level_of_unary fun m _ => by cases m <;> simp [he, Level.joins]
      exact .expression htarget (.assign he (ih rest hn))
  | @misassign us vs equals target value bad bad' _ hname he _ iht ih =>
      intro rest hn
      have hequals : ∀ m : Level, nextIs m.joins (equals :: (vs ++ rest)) = false :=
        fun m => by cases m <;> simp [he, Level.joins]
      have htarget := iht (equals :: (vs ++ rest)) _ _ [] (fun m _ => hequals m)
        (.chainEnd (hequals _))
      have hread := ReadsExpr.expression htarget (.misassign he hname (ih rest hn))
      simpa [invalidTarget] using hread
  | single _ ih =>
      intro rest o rest' reports hn hchain
      exact .level (ih.operand hn) hchain
  | @join l us vs operator left right bad bad' _ hjoins _ ihl ihr =>
      intro rest o rest' reports hn hchain
      have ho := joins_iff.mp hjoins
      rw [tree_eq_node hjoins] at hchain
      -- the operator is none of a tighter level, so the left operand ends before it
      have hop : ∀ m : Level, m.rank < l.rank →
          nextIs m.joins (operator :: (vs ++ rest)) = false := by
        intro m hm
        rw [nextIs_cons, Bool.eq_false_iff]
        intro hj
        rw [Level.eq_of_joins hj ho] at hm
        exact Nat.lt_irrefl _ hm
      have hnext := ReadsExpr.chain ho (ihr.operand hn) hchain
      simpa using ihl _ _ _ _ hop hnext
  | unary ho _ ih =>
      intro rest
      exact .unary (isUnary_iff.mpr ho) (ih rest)
  | primary h ih =>
      intro rest
      exact .primary (h.nextIs_isUnary rest) (ih rest)
  | atom h =>
      intro rest
      exact .atom (atom_iff.mp h)
  | @grouping opening closing us e bad ho _ hc ih =>
      intro rest
      have hinner := ih (closing :: rest) (by simp [hc, continuesExpr, Token.Kind.isBinary,
        Token.Kind.isLogical])
      simpa using ReadsExpr.grouping ho hinner hc

/-- A derived expression with a semicolon behind it. -/
theorem reads_terminated {us : List Token} {e : Expr} {bad : List Token} {semicolon : Token}
    (h : Expression .expression us e bad) (hs : semicolon.kind = .semicolon) (missing : Expected)
    (rest : List Token) :
    ReadsExpr (.terminated missing) (us ++ semicolon :: rest) (.ok e) rest
      (bad.map invalidTarget) := by
  have hread := reads_of_expression h (semicolon :: rest)
    (by simp [hs, continuesExpr, Token.Kind.isBinary, Token.Kind.isLogical])
  exact .terminated hread hs

/-- A derived expression in the parentheses of a condition. -/
theorem reads_condition {us : List Token} {e : Expr} {bad : List Token} {opening closing : Token}
    (ho : opening.kind = .leftParen) (h : Expression .expression us e bad)
    (hc : closing.kind = .rightParen) (rest : List Token) :
    ReadsExpr .condition (opening :: (us ++ closing :: rest)) (.ok e) rest
      (bad.map invalidTarget) := by
  have hread := reads_of_expression h (closing :: rest)
    (by simp [hc, continuesExpr, Token.Kind.isBinary, Token.Kind.isLogical])
  exact .condition ho hread hc

/-! ## Statements -/

variable {eof : Token}

/-- What the rules for statements make of derived tokens `us` that stand in front of others. An
`else` must not come next if the statement would take it. Several declarations go on as the
others are read. -/
def Sentence.Read (eof : Token) : Sentence → List Token → List Stmt → List Token → Prop
  | .statement, us, ss, bad =>
    ∀ rest, (nextIs (· = .kwElse) rest → ∀ s ∈ ss, s.takesElse = false) →
      ReadsStmts eof .statement (us ++ rest) (.ok ss) rest (bad.map invalidTarget)
  | .declaration, us, ss, bad =>
    ∀ rest, nextIs (· = .kwElse) rest = false →
      ReadsStmts eof .declaration (us ++ rest) (.ok ss) rest (bad.map invalidTarget)
  | .declarations, us, ss, bad =>
    ∀ inBlock rest ss' rest' reports, nextIs (· = .kwElse) rest = false →
      ReadsStmts eof (.declarations inBlock) rest (.ok ss') rest' reports →
        ReadsStmts eof (.declarations inBlock) (us ++ rest) (.ok (ss ++ ss')) rest'
          (bad.map invalidTarget ++ reports)

theorem ne_kwElse_of_startsDeclaration (k : Token.Kind) (h : startsDeclaration k) :
    decide (k = .kwElse) = false := by
  rw [decide_eq_false_iff_not]
  rintro rfl
  cases h

theorem stops_eq_false_of_startsDeclaration {t : Token} (ht : startsDeclaration t.kind)
    (inBlock : Bool) (ts : List Token) : stops inBlock (t :: ts) = false := by
  have hk : t.kind ≠ .rightBrace := by
    intro hk
    rw [hk] at ht
    cases ht
  simp [hk]

theorem stops_eq_false {us : List Token} {s : Stmt} {bad : List Token}
    (h : Statements .declaration us [s] bad) (inBlock : Bool) (rest : List Token) :
    stops inBlock (us ++ rest) = false := by
  obtain ⟨t, us, rfl, ht, -⟩ := h.first (by simp)
  exact stops_eq_false_of_startsDeclaration ht inBlock (us ++ rest)

/-- Derived tokens are read as the derived statements. -/
theorem reads_of_statements {r : Sentence} {us : List Token} {ss : List Stmt} {bad : List Token}
    (h : Statements r us ss bad) : Sentence.Read eof r us ss bad := by
  induction h with
  | nil =>
      intro inBlock rest ss' rest' reports _ h
      exact h
  | @cons us us' s ss bad bad' h hs ih ihs =>
      intro inBlock rest ss' rest' reports hn hrest
      have hnext : nextIs (· = .kwElse) (us' ++ rest) = false :=
        hs.nextIs_append ne_kwElse_of_startsDeclaration hn
      have hread := ReadsStmts.kept
        (by simpa using stops_eq_false h inBlock (us' ++ rest)) (ih _ hnext)
        (ihs inBlock rest ss' rest' reports hn hrest)
      simpa using hread
  | declare hk hn hs =>
      intro rest _
      exact .declare hk hn hs
  | declareValue hk hn he h hs =>
      intro rest _
      simpa using ReadsStmts.declareValue hk hn he (reads_terminated h hs _ rest)
  | @statement us s bad h ih =>
      intro rest hn
      -- a statement does not start like a variable declaration
      obtain ⟨t, vs, rfl, -, ht⟩ := h.first (by simp)
      exact .statement (by simpa using ht rfl) (ih rest (by simp [hn]))
  | expression h hs =>
      intro rest _
      obtain ⟨t, vs, rfl, ht⟩ := h.first
      have hn : opensStatement t.kind = false := by
        cases hk : t.kind <;> simp_all [opensStatement, startsExpr]
      simpa using ReadsStmts.expression (by simpa using hn) (reads_terminated h hs _ rest)
  | print hk h hs =>
      intro rest _
      simpa using ReadsStmts.print hk (reads_terminated h hs _ rest)
  | @block opening closing us ss bad ho _ hc ih =>
      intro rest _
      have hbody := ih true (closing :: rest) [] (closing :: rest) [] (by simp [hc])
        (.nothing (by simp [hc]))
      simpa using ReadsStmts.block ho (by simpa using hbody) hc
  | ifThen hk ho h hc _ ih =>
      intro rest hn
      have hno : nextIs (· = .kwElse) rest = false := by
        rw [Bool.eq_false_iff]
        intro hnext
        have htakes := hn hnext _ (List.mem_singleton_self _)
        simp [Stmt.takesElse] at htakes
      have hbranch := ih rest (by simp [hno])
      simpa using ReadsStmts.ifThen hk (reads_condition ho h hc _) hbranch hno
  | @ifElse _ _ _ other _ _ vs _ s t _ _ _ hk ho h hc _ hs hw _ ih iht =>
      intro rest hn
      have hthen := ih (other :: (vs ++ rest)) fun _ => by simpa using hs
      have helse := iht rest fun hnext => by simpa [Stmt.takesElse] using hn hnext
      simpa using ReadsStmts.ifElse hk (reads_condition ho h hc _) hthen hw helse

/-- Declarations without a fatal fault are read if and only if the tokens have a derivation. -/
theorem reads_nonfatal_iff {ts : List Token} {ss : List Stmt} {reports : List ParseError} :
    (ReadsStmts eof (.declarations false) ts (.ok ss) [] reports ∧
      ∀ e ∈ reports, e.isFatal = false) ↔
    ∃ bad, Statements .declarations ts ss bad ∧ reports = bad.map invalidTarget := by
  constructor
  · rintro ⟨h, hn⟩
    obtain ⟨us, rfl, vs, bad, -, hd, hall⟩ := h.derives
    obtain ⟨rfl, hreports⟩ := hall hn
    exact ⟨bad, by simpa [StmtRule.sentence] using hd, hreports⟩
  · rintro ⟨bad, hd, rfl⟩
    refine ⟨?_, by simp [invalidTarget, ParseError.isFatal]⟩
    have hread : ReadsStmts eof (.declarations false) (ts ++ []) (.ok (ss ++ [])) []
        (bad.map invalidTarget ++ []) :=
      reads_of_statements hd false [] [] [] [] rfl (.nothing rfl)
    simpa using hread

/-- Declarations without a fault are what the grammar derives. -/
theorem reads_strict_iff {ts : List Token} {ss : List Stmt} :
    ReadsStmts eof (.declarations false) ts (.ok ss) [] [] ↔ Strict ts ss := by
  constructor
  · intro hread
    obtain ⟨bad, hd, hbad⟩ := reads_nonfatal_iff.mp ⟨hread, by simp⟩
    obtain rfl : bad = [] := by simpa using hbad
    exact hd
  · intro hd
    exact (reads_nonfatal_iff.mpr ⟨[], hd, rfl⟩).1

end Parse

end Lox
