import Lox.Proofs.Parse.Completeness

set_option autoImplicit false

/-! # Accepted programs

A program without faults is exactly what the grammar derives. The names and operators in its tree
are the names and operators among the tokens, each at its place: in the order of the tree they are
the tokens of these kinds in the order of the source (`Grammar.Statements.storedAll_eq_filter`).
-/

namespace Lox

/-! ## The tokens in a tree -/

namespace Token.Kind

/-- Whether trees keep the tokens of the kind. -/
def isStored (k : Kind) : Bool := k = identifier || k.isUnary || k.isBinary || k.isLogical

end Token.Kind

/-- The names and operators in an expression, from left to right. -/
def Expr.stored : Expr → List Token
  | literal _ => []
  | grouping inner => inner.stored
  | unary operator operand => operator :: operand.stored
  | binary left operator right | logical left operator right =>
    left.stored ++ operator :: right.stored
  | var name => [name]
  | assign name value => name :: value.stored

namespace Stmt

mutual

/-- The names and operators in a statement, from left to right. -/
def stored : Stmt → List Token
  | expression e | print e => e.stored
  | declare name initializer => name :: (initializer.elim [] Expr.stored)
  | block body => storedAll body
  | ifThen condition thenBranch => condition.stored ++ thenBranch.stored
  | ifElse condition thenBranch elseBranch =>
    condition.stored ++ (thenBranch.stored ++ elseBranch.stored)

/-- The names and operators in statements, from left to right. -/
def storedAll : List Stmt → List Token
  | [] => []
  | s :: ss => s.stored ++ storedAll ss

end

end Stmt

namespace Grammar

open Token.Kind

theorem isStored_of_joins {l : Level} {k : Token.Kind} (h : Joins l k) : k.isStored := by
  cases h <;> rfl

theorem stored_tree (left right : Expr) (operator : Token) :
    (tree left operator right).stored = left.stored ++ operator :: right.stored := by
  unfold tree
  split <;> rfl

theorem Atom.stored_eq_filter {t : Token} {e : Expr} (h : Atom t e) :
    e.stored = [t].filter (·.kind.isStored) := by
  cases h with
  | «false» h | «true» h | nil h | number h | string h | name h =>
      rw [List.filter_singleton, h]
      rfl

/-- An expression keeps the names and operators among its tokens. -/
theorem Expression.stored_eq_filter {r : Rule} {ts : List Token} {e : Expr} {bad : List Token}
    (h : Expression r ts e bad) (hb : bad = []) : e.stored = ts.filter (·.kind.isStored) := by
  induction h with
  | loosest _ ih | single _ ih | primary _ ih => exact ih hb
  | assign hn he _ ih => simp [Expr.stored, ih hb, hn, he, isStored, isUnary, isBinary, isLogical]
  | misassign => simp at hb
  | join _ ho _ ihl ihr =>
      obtain ⟨hl, hr⟩ := List.append_eq_nil_iff.mp hb
      rw [stored_tree, ihl hl, ihr hr, List.filter_append, List.filter_cons,
        if_pos (isStored_of_joins ho)]
  | @unary operator _ _ _ ho _ ih =>
      have hkept : operator.kind.isStored := by
        rcases ho with ho | ho
        · rw [ho]
          rfl
        · rw [ho]
          rfl
      rw [Expr.stored, ih hb, List.filter_cons, if_pos hkept]
  | atom h => exact h.stored_eq_filter
  | grouping ho _ hc ih =>
      simp [Expr.stored, ih hb, ho, hc, isStored, isUnary, isBinary, isLogical]

/-- Statements keep the names and operators among their tokens. -/
theorem Statements.storedAll_eq_filter {r : Sentence} {ts : List Token} {ss : List Stmt}
    {bad : List Token} (h : Statements r ts ss bad) (hb : bad = []) :
    Stmt.storedAll ss = ts.filter (·.kind.isStored) := by
  induction h with
  | nil => rfl
  | cons _ _ ih ihs =>
      obtain ⟨hb, hb'⟩ := List.append_eq_nil_iff.mp hb
      have hs := ih hb
      simp only [Stmt.storedAll, List.append_nil] at hs
      rw [Stmt.storedAll, hs, ihs hb', List.filter_append]
  | declare hk hn hs =>
      simp [Stmt.storedAll, Stmt.stored, hk, hn, hs, isStored, isUnary, isBinary, isLogical]
  | declareValue hk hn he h hs =>
      simp [Stmt.storedAll, Stmt.stored, h.stored_eq_filter hb, hk, hn, he, hs, isStored, isUnary,
        isBinary, isLogical]
  | statement _ ih => exact ih hb
  | expression h hs =>
      simp [Stmt.storedAll, Stmt.stored, h.stored_eq_filter hb, hs, isStored, isUnary, isBinary,
        isLogical]
  | print hk h hs =>
      simp [Stmt.storedAll, Stmt.stored, h.stored_eq_filter hb, hk, hs, isStored, isUnary, isBinary,
        isLogical]
  | block ho _ hc ih =>
      simp [Stmt.storedAll, Stmt.stored, ih hb, ho, hc, isStored, isUnary, isBinary, isLogical]
  | ifThen hk ho h hc _ ih =>
      obtain ⟨hb, hb'⟩ := List.append_eq_nil_iff.mp hb
      have hs := ih hb'
      simp only [Stmt.storedAll, List.append_nil] at hs
      simp [Stmt.storedAll, Stmt.stored, h.stored_eq_filter hb, hs, hk, ho, hc, isStored, isUnary,
        isBinary, isLogical]
  | ifElse hk ho h hc _ _ hw _ ih iht =>
      obtain ⟨hbb, hb''⟩ := List.append_eq_nil_iff.mp hb
      obtain ⟨hb, hb'⟩ := List.append_eq_nil_iff.mp hbb
      have hs := ih hb'
      have ht := iht hb''
      simp only [Stmt.storedAll, List.append_nil] at hs ht
      simp [Stmt.storedAll, Stmt.stored, h.stored_eq_filter hb, hs, ht, hk, ho, hc, hw, isStored,
        isUnary, isBinary, isLogical]

end Grammar

namespace Program

open Parse

/-! ## Programs without faults -/

/-- Tokens in front of the end belong to the program. -/
theorem body_append {ts : List Token} (h : ∀ t ∈ ts, t.kind ≠ .eof) (us : List Token) :
    body (ts ++ us) = ts ++ body us :=
  List.takeWhile_append_of_pos (by simpa using h)

theorem body_concat {ts : List Token} {eof : Token} (hts : ∀ t ∈ ts, t.kind ≠ .eof)
    (heof : eof.kind = .eof) : body (ts ++ [eof]) = ts := by
  rw [body_append hts]
  simp [body, heof]

theorem ending_concat {ts : List Token} {eof : Token} (hts : ∀ t ∈ ts, t.kind ≠ .eof)
    (heof : eof.kind = .eof) : ending (ts ++ [eof]) = eof := by
  have hnone : ts.find? (·.kind = .eof) = none := by simpa using hts
  simp [ending, hnone, heof]

/-- A derivation of the tokens before the end is all it takes to be free of faults. -/
theorem ofTokens_eq_iff_strict {ts us : List Token} {ss : List Stmt} (h : body us = ts) :
    ofTokens us = ⟨ss, []⟩ ↔ Grammar.Strict ts ss := by
  rw [ofTokens_eq_iff, h, reads_strict_iff]

/-- **Accepted programs.** Tokens before an end token are read as statements without a fault if
and only if the grammar derives the statements from them; it derives no others, and their names
and operators are those of the tokens, each at its place. -/
theorem accepts_iff_strict {ts : List Token} {eof : Token} (hts : ∀ t ∈ ts, t.kind ≠ .eof)
    (heof : eof.kind = .eof) (ss : List Stmt) :
    (ofTokens (ts ++ [eof]) = ⟨ss, []⟩ ↔ Grammar.Strict ts ss) ∧
      (Grammar.Strict ts ss → (∀ ss', Grammar.Strict ts ss' → ss' = ss) ∧
        Stmt.storedAll ss = ts.filter (·.kind.isStored)) := by
  have hbody : body (ts ++ [eof]) = ts := body_concat hts heof
  refine ⟨ofTokens_eq_iff_strict hbody, fun h => ⟨fun ss' h' => ?_, h.storedAll_eq_filter rfl⟩⟩
  have hp := (ofTokens_eq_iff_strict hbody).mpr h
  have hp' := (ofTokens_eq_iff_strict hbody).mpr h'
  exact congrArg statements (hp'.symm.trans hp)

/-- The token `lexeme` of the kind `kind` on the first line. -/
def word (kind : Token.Kind) (lexeme : String) : Token := ⟨kind, lexeme, none, 1⟩

/-- The token `1` on the first line. -/
def oneToken : Token := ⟨.number, "1", some (.number 1), 1⟩

/-- The token `"s"` on the first line. -/
def stringToken : Token := ⟨.string, "\"s\"", some (.string "s"), 1⟩

/-- The tokens of `if (a) if (b) a = b = a + 1 * b - 1; else print "s" or b;`. -/
def danglingElse : List Token :=
  [word .kwIf "if", word .leftParen "(", word .identifier "a", word .rightParen ")",
   word .kwIf "if", word .leftParen "(", word .identifier "b", word .rightParen ")",
   word .identifier "a", word .equal "=", word .identifier "b", word .equal "=",
   word .identifier "a", word .plus "+", oneToken, word .star "*", word .identifier "b",
   word .minus "-", oneToken, word .semicolon ";", word .kwElse "else", word .kwPrint "print",
   stringToken, word .kwOr "or", word .identifier "b", word .semicolon ";"]

/-- The statement of these tokens. -/
def danglingElseTree : Stmt :=
  let a : Expr := .var (word .identifier "a")
  let b : Expr := .var (word .identifier "b")
  .ifThen a
    (.ifElse b
      (.expression (.assign (word .identifier "a") (.assign (word .identifier "b")
        (.binary
          (.binary a (word .plus "+") (.binary (.literal (.number 1)) (word .star "*") b))
          (word .minus "-") (.literal (.number 1))))))
      (.print (.logical (.literal (.string "s")) (word .kwOr "or") b)))

/-- The `else` belongs to the second `if`, assignment associates to the right, differences to the
left, and a product is an operand of a sum. -/
theorem strict_danglingElse :
    (∀ t ∈ danglingElse, t.kind ≠ .eof) ∧ (Token.endOn 1).kind = .eof ∧
      ofTokens (danglingElse ++ [Token.endOn 1]) = ⟨[danglingElseTree], []⟩ ∧
      Grammar.Strict danglingElse [danglingElseTree] ∧
      ∀ ss, Grammar.Strict danglingElse ss → ss = [danglingElseTree] := by
  have hts : ∀ t ∈ danglingElse, t.kind ≠ .eof := by decide
  have heof : (Token.endOn 1).kind = .eof := rfl
  have hread : ofTokens (danglingElse ++ [Token.endOn 1]) = ⟨[danglingElseTree], []⟩ := by
    decide +kernel
  obtain ⟨hiff, hunique⟩ := accepts_iff_strict hts heof [danglingElseTree]
  have hstrict := hiff.mp hread
  exact ⟨hts, heof, hread, hstrict, (hunique hstrict).1⟩

end Program

end Lox
