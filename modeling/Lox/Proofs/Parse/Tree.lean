import Mathlib.Tactic
import Lox.Proofs.Parse.Acceptance

set_option autoImplicit false

/-! # The trees of programs

Facts about the trees that the grammar derives, and so about whatever is read from tokens, also if
parts of it were dropped: every operator belongs in the node it stands in
(`Program.allFit_statements`), declarations stand in lists of statements only, never as a branch of
a conditional (`Program.allWellPlaced_statements`), and names are identifiers among the tokens
(`Program.namesAll_subset`). Two programs in a row are one program (`Grammar.Strict.append`).
-/

namespace Lox

/-! ## Operators fit -/

namespace Grammar

theorem fits_tree {l : Level} {operator : Token} {left right : Expr} (h : Joins l operator.kind)
    (hl : left.Fits) (hr : right.Fits) : (tree left operator right).Fits := by
  unfold tree
  split
  · next hk => exact ⟨by rw [hk]; rfl, hl, hr⟩
  · next hk => exact ⟨by rw [hk]; rfl, hl, hr⟩
  · next hand hor =>
    refine ⟨?_, hl, hr⟩
    generalize operator.kind = k at h hand hor
    cases h with
    | or => exact absurd rfl hor
    | and => exact absurd rfl hand
    | _ => rfl

theorem Expression.fits {r : Rule} {ts : List Token} {e : Expr} {bad : List Token}
    (h : Expression r ts e bad) : e.Fits := by
  induction h with
  | loosest _ ih | single _ ih | primary _ ih | grouping _ _ _ ih => exact ih
  | assign _ _ _ ih => exact ih
  | misassign _ _ _ _ iht _ => exact iht
  | join _ ho _ ihl ihr => exact fits_tree ho ihl ihr
  | unary ho _ ih =>
      refine ⟨?_, ih⟩
      rcases ho with ho | ho
      · rw [ho]
        rfl
      · rw [ho]
        rfl
  | atom h => cases h <;> exact trivial

theorem Statements.allFit {r : Sentence} {ts : List Token} {ss : List Stmt} {bad : List Token}
    (h : Statements r ts ss bad) : Stmt.AllFit ss := by
  induction h with
  | nil => exact trivial
  | cons _ _ ih ihs => exact ⟨ih.1, ihs⟩
  | declare => exact ⟨by simp [Stmt.Fits], trivial⟩
  | declareValue _ _ _ h _ =>
      refine ⟨?_, trivial⟩
      intro e he
      cases he
      exact h.fits
  | statement _ ih => exact ih
  | expression h _ => exact ⟨h.fits, trivial⟩
  | print _ h _ => exact ⟨h.fits, trivial⟩
  | block _ _ _ ih => exact ⟨ih, trivial⟩
  | ifThen _ _ h _ _ ih => exact ⟨⟨h.fits, ih.1⟩, trivial⟩
  | ifElse _ _ h _ _ _ _ _ ih iht => exact ⟨⟨h.fits, ih.1, iht.1⟩, trivial⟩

end Grammar

/-- Whatever was kept of some tokens, every operator in it belongs to the node it stands in. -/
theorem Program.allFit_statements (ts : List Token) : Stmt.AllFit (ofTokens ts).statements := by
  obtain ⟨us, -, vs, bad, -, hd, -⟩ := (reads_ofTokens ts).derives
  exact hd.allFit

/-! ## Declarations stand in lists -/

namespace Stmt

/-- The name that a statement declares, if it is a declaration. -/
def declared? : Stmt → Option String
  | declare name _ => some name.lexeme
  | _ => none

/-- The names that a list of statements declares itself, not in a block inside. -/
def declaredIn (ss : List Stmt) : List String := ss.filterMap declared?

mutual

/-- No branch of a conditional in the statement is a declaration. -/
def WellPlaced : Stmt → Prop
  | expression _ | print _ | declare _ _ => True
  | block body => AllWellPlaced body
  | ifThen _ thenBranch => thenBranch.declared? = none ∧ thenBranch.WellPlaced
  | ifElse _ thenBranch elseBranch =>
    (thenBranch.declared? = none ∧ thenBranch.WellPlaced) ∧
      elseBranch.declared? = none ∧ elseBranch.WellPlaced

/-- No branch of a conditional in the statements is a declaration. -/
def AllWellPlaced : List Stmt → Prop
  | [] => True
  | s :: ss => s.WellPlaced ∧ AllWellPlaced ss

end

end Stmt

namespace Grammar

theorem Statements.declared?_eq_none {ts : List Token} {s : Stmt} {bad : List Token}
    (h : Statements .statement ts [s] bad) : s.declared? = none := by
  cases h with
  | expression | print | block | ifThen | ifElse => rfl

theorem Statements.allWellPlaced {r : Sentence} {ts : List Token} {ss : List Stmt}
    {bad : List Token} (h : Statements r ts ss bad) : Stmt.AllWellPlaced ss := by
  induction h with
  | nil => exact trivial
  | cons _ _ ih ihs => exact ⟨ih.1, ihs⟩
  | declare | declareValue | expression | print => exact ⟨trivial, trivial⟩
  | statement _ ih => exact ih
  | block _ _ _ ih => exact ⟨ih, trivial⟩
  | ifThen _ _ _ _ hs ih => exact ⟨⟨hs.declared?_eq_none, ih.1⟩, trivial⟩
  | ifElse _ _ _ _ hs _ _ ht ih iht =>
      exact ⟨⟨⟨hs.declared?_eq_none, ih.1⟩, ht.declared?_eq_none, iht.1⟩, trivial⟩

end Grammar

/-- Whatever was kept of some tokens, no branch of a conditional in it is a declaration. -/
theorem Program.allWellPlaced_statements (ts : List Token) :
    Stmt.AllWellPlaced (ofTokens ts).statements := by
  obtain ⟨us, -, vs, bad, -, hd, -⟩ := (reads_ofTokens ts).derives
  exact hd.allWellPlaced

/-! ## Names are identifiers -/

/-- The names in an expression, from left to right. -/
def Expr.names : Expr → List Token
  | literal _ => []
  | grouping inner => inner.names
  | unary _ operand => operand.names
  | binary left _ right | logical left _ right => left.names ++ right.names
  | var name => [name]
  | assign name value => name :: value.names

namespace Stmt

mutual

/-- The names in a statement, from left to right. -/
def names : Stmt → List Token
  | expression e | print e => e.names
  | declare name initializer => name :: (initializer.elim [] Expr.names)
  | block body => namesAll body
  | ifThen condition thenBranch => condition.names ++ thenBranch.names
  | ifElse condition thenBranch elseBranch =>
    condition.names ++ (thenBranch.names ++ elseBranch.names)

/-- The names in statements, from left to right. -/
def namesAll : List Stmt → List Token
  | [] => []
  | s :: ss => s.names ++ namesAll ss

end

theorem namesAll_singleton (s : Stmt) : namesAll [s] = s.names := List.append_nil _

end Stmt

namespace Grammar

/-- The names among tokens. -/
def identifiers (ts : List Token) : List Token := ts.filter (·.kind = .identifier)

theorem identifiers_append (ts us : List Token) :
    identifiers (ts ++ us) = identifiers ts ++ identifiers us := List.filter_append ts us

theorem identifiers_cons {t : Token} (h : t.kind = .identifier) (ts : List Token) :
    identifiers (t :: ts) = t :: identifiers ts := List.filter_cons_of_pos (by simpa using h)

theorem identifiers_sublist {ts us : List Token} (h : ts.Sublist us) :
    (identifiers ts).Sublist (identifiers us) := h.filter _

theorem identifiers_sublist_cons (t : Token) (ts : List Token) :
    (identifiers ts).Sublist (identifiers (t :: ts)) :=
  identifiers_sublist (List.sublist_cons_self t ts)

/-- Tokens between two others, as in parentheses. -/
theorem identifiers_sublist_between (t : Token) (ts us : List Token) :
    (identifiers ts).Sublist (identifiers (t :: (ts ++ us))) :=
  identifiers_sublist ((List.sublist_append_left ts us).cons t)

theorem names_tree (left right : Expr) (operator : Token) :
    (tree left operator right).names = left.names ++ right.names := by
  unfold tree
  split <;> rfl

/-- The names in an expression are names among its tokens, in order. -/
theorem Expression.names_sublist {r : Rule} {ts : List Token} {e : Expr} {bad : List Token}
    (h : Expression r ts e bad) : e.names.Sublist (identifiers ts) := by
  induction h with
  | loosest _ ih | single _ ih | primary _ ih => exact ih
  | assign hn _ _ ih =>
      rw [identifiers_cons hn]
      exact (ih.trans (identifiers_sublist_cons _ _)).cons_cons _
  | misassign _ _ _ _ iht _ =>
      -- the value is not in the tree
      exact iht.trans (identifiers_sublist (List.sublist_append_left _ _))
  | join _ _ _ ihl ihr =>
      rw [names_tree, identifiers_append]
      exact ihl.append (ihr.trans (identifiers_sublist_cons _ _))
  | unary _ _ ih => exact ih.trans (identifiers_sublist_cons _ _)
  | atom h =>
      cases h with
      | name hk =>
          rw [identifiers_cons hk]
          exact List.Sublist.refl _
      | _ => exact List.nil_sublist _
  | grouping _ _ _ ih => exact ih.trans (identifiers_sublist_between _ _ _)

/-- The names in statements are names among their tokens, in order. -/
theorem Statements.names_sublist {r : Sentence} {ts : List Token} {ss : List Stmt}
    {bad : List Token} (h : Statements r ts ss bad) :
    (Stmt.namesAll ss).Sublist (identifiers ts) := by
  induction h with
  | nil => exact List.Sublist.refl _
  | cons _ _ ih ihs =>
      rw [Stmt.namesAll_singleton] at ih
      rw [identifiers_append]
      exact ih.append ihs
  | @declare _ name _ _ hn _ =>
      refine List.Sublist.trans ?_ (identifiers_sublist_cons _ _)
      rw [identifiers_cons hn]
      exact (List.nil_sublist _).cons_cons name
  | @declareValue _ name _ _ _ _ _ _ hn _ h _ =>
      refine List.Sublist.trans ?_ (identifiers_sublist_cons _ _)
      rw [identifiers_cons hn, Stmt.namesAll_singleton]
      exact (h.names_sublist.trans (identifiers_sublist_between _ _ _)).cons_cons name
  | statement _ ih => exact ih
  | expression h _ =>
      rw [Stmt.namesAll_singleton]
      exact h.names_sublist.trans (identifiers_sublist (List.sublist_append_left _ _))
  | print _ h _ =>
      rw [Stmt.namesAll_singleton]
      exact h.names_sublist.trans (identifiers_sublist_between _ _ _)
  | block _ _ _ ih =>
      rw [Stmt.namesAll_singleton]
      exact ih.trans (identifiers_sublist_between _ _ _)
  | ifThen _ _ h _ _ ih =>
      rw [Stmt.namesAll_singleton] at ih ⊢
      refine List.Sublist.trans ?_
        ((identifiers_sublist_cons _ _).trans (identifiers_sublist_cons _ _))
      rw [identifiers_append]
      exact h.names_sublist.append (ih.trans (identifiers_sublist_cons _ _))
  | @ifElse _ _ _ other _ us vs _ s t _ _ _ _ _ h _ _ _ _ _ ih iht =>
      rw [Stmt.namesAll_singleton] at ih iht ⊢
      have hbranches : (s.names ++ t.names).Sublist (identifiers (us ++ other :: vs)) := by
        rw [identifiers_append]
        exact ih.append (iht.trans (identifiers_sublist_cons _ _))
      refine List.Sublist.trans ?_
        ((identifiers_sublist_cons _ _).trans (identifiers_sublist_cons _ _))
      rw [identifiers_append]
      exact h.names_sublist.append (hbranches.trans (identifiers_sublist_cons _ _))

end Grammar

/-- Whatever was kept of some tokens, the names in it are identifiers among them. -/
theorem Program.namesAll_subset (ts : List Token) :
    Stmt.namesAll (ofTokens ts).statements ⊆ Grammar.identifiers ts := by
  obtain ⟨us, hbody, vs, bad, hsub, hd, -⟩ := (reads_ofTokens ts).derives
  rw [List.append_nil] at hbody
  have hbefore : us.Sublist ts := hbody ▸ List.takeWhile_sublist _
  exact (hd.names_sublist.trans (Grammar.identifiers_sublist (hsub.trans hbefore))).subset

/-! ## Programs in a row -/

namespace Grammar

theorem Statements.append {ts us : List Token} {ss ss' : List Stmt} {bad bad' : List Token}
    (h : Statements .declarations ts ss bad) (h' : Statements .declarations us ss' bad') :
    Statements .declarations (ts ++ us) (ss ++ ss') (bad ++ bad') := by
  generalize hr : Sentence.declarations = r at h
  induction h with
  | nil => exact h'
  | cons h _ _ ihs =>
      rw [List.append_assoc, List.append_assoc]
      exact .cons h (ihs hr)
  | declare | declareValue | statement | expression | print | block | ifThen | ifElse => cases hr

/-- One program followed by another is a program of the statements of both. -/
theorem Strict.append {ts us : List Token} {ss ss' : List Stmt} (h : Strict ts ss)
    (h' : Strict us ss') : Strict (ts ++ us) (ss ++ ss') :=
  Statements.append h h'

end Grammar

end Lox
