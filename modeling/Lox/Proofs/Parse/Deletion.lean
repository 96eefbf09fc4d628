import Lox.Proofs.Parse.Acceptance

set_option autoImplicit false

/-! # What recovery keeps

Whatever faults a list of tokens has, the statements that are kept are those of a program without
faults, which comes from the list by leaving out tokens (`Program.exists_sublist_accepted`). Tokens
are left out for two reasons: they belong to a declaration that was dropped
(`ReadsStmts.derives`), or to the right side of an assignment whose left side is not a name
(`Grammar.Statements.exists_strict`).
-/

namespace Lox

namespace Grammar

/-! ## Leaving out the values of invalid assignments -/

/-- Without the right sides of the assignments that it collects, an expression has a derivation
that collects none. -/
theorem Expression.exists_strict {r : Rule} {ts : List Token} {e : Expr} {bad : List Token}
    (h : Expression r ts e bad) : ∃ us, us.Sublist ts ∧ Expression r us e [] := by
  induction h with
  | loosest _ ih =>
      obtain ⟨us, hsub, hd⟩ := ih
      exact ⟨us, hsub, .loosest hd⟩
  | @assign name equals _ _ _ hn he _ ih =>
      obtain ⟨us, hsub, hd⟩ := ih
      exact ⟨name :: equals :: us, (hsub.cons_cons _).cons_cons _, .assign hn he hd⟩
  | misassign _ _ _ _ iht _ =>
      -- the tree is that of the left side, so the left side alone derives it
      obtain ⟨us, hsub, hd⟩ := iht
      exact ⟨us, hsub.trans (List.sublist_append_left _ _), .loosest hd⟩
  | single _ ih =>
      obtain ⟨us, hsub, hd⟩ := ih
      exact ⟨us, hsub, .single hd⟩
  | @join _ _ _ operator _ _ _ _ _ ho _ ihl ihr =>
      obtain ⟨us, hsub, hd⟩ := ihl
      obtain ⟨vs, hsub', hd'⟩ := ihr
      exact ⟨us ++ operator :: vs, hsub.append (hsub'.cons_cons _), .join hd ho hd'⟩
  | @unary operator _ _ _ ho _ ih =>
      obtain ⟨us, hsub, hd⟩ := ih
      exact ⟨operator :: us, hsub.cons_cons _, .unary ho hd⟩
  | primary _ ih =>
      obtain ⟨us, hsub, hd⟩ := ih
      exact ⟨us, hsub, .primary hd⟩
  | atom h => exact ⟨_, List.Sublist.refl _, .atom h⟩
  | @grouping opening closing _ _ _ ho _ hc ih =>
      obtain ⟨us, hsub, hd⟩ := ih
      exact ⟨opening :: (us ++ [closing]), (hsub.append (List.Sublist.refl _)).cons_cons _,
        .grouping ho hd hc⟩

/-- The same for statements. -/
theorem Statements.exists_strict {r : Sentence} {ts : List Token} {ss : List Stmt}
    {bad : List Token} (h : Statements r ts ss bad) :
    ∃ us, us.Sublist ts ∧ Statements r us ss [] := by
  induction h with
  | nil => exact ⟨[], List.Sublist.refl _, .nil⟩
  | cons _ _ ih ihs =>
      obtain ⟨us, hsub, hd⟩ := ih
      obtain ⟨vs, hsub', hd'⟩ := ihs
      exact ⟨us ++ vs, hsub.append hsub', .cons hd hd'⟩
  | declare hk hn hs => exact ⟨_, List.Sublist.refl _, .declare hk hn hs⟩
  | @declareValue keyword name equals semicolon _ _ _ hk hn he h hs =>
      obtain ⟨us, hsub, hd⟩ := h.exists_strict
      exact ⟨keyword :: name :: equals :: (us ++ [semicolon]),
        (((hsub.append (List.Sublist.refl _)).cons_cons _).cons_cons _).cons_cons _,
        .declareValue hk hn he hd hs⟩
  | statement _ ih =>
      obtain ⟨us, hsub, hd⟩ := ih
      exact ⟨us, hsub, .statement hd⟩
  | @expression _ semicolon _ _ h hs =>
      obtain ⟨us, hsub, hd⟩ := h.exists_strict
      exact ⟨us ++ [semicolon], hsub.append (List.Sublist.refl _), .expression hd hs⟩
  | @print keyword semicolon _ _ _ hk h hs =>
      obtain ⟨us, hsub, hd⟩ := h.exists_strict
      exact ⟨keyword :: (us ++ [semicolon]), (hsub.append (List.Sublist.refl _)).cons_cons _,
        .print hk hd hs⟩
  | @block opening closing _ _ _ ho _ hc ih =>
      obtain ⟨us, hsub, hd⟩ := ih
      exact ⟨opening :: (us ++ [closing]), (hsub.append (List.Sublist.refl _)).cons_cons _,
        .block ho hd hc⟩
  | @ifThen keyword opening closing _ _ _ _ _ _ hk ho h hc _ ih =>
      obtain ⟨cs, hcond, hdc⟩ := h.exists_strict
      obtain ⟨us, hsub, hd⟩ := ih
      exact ⟨keyword :: opening :: (cs ++ closing :: us),
        ((hcond.append (hsub.cons_cons _)).cons_cons _).cons_cons _, .ifThen hk ho hdc hc hd⟩
  | @ifElse keyword opening closing other _ _ _ _ _ _ _ _ _ hk ho h hc _ hn hw _ ih iht =>
      obtain ⟨cs, hcond, hdc⟩ := h.exists_strict
      obtain ⟨us, hsub, hd⟩ := ih
      obtain ⟨vs, hsub', hd'⟩ := iht
      exact ⟨keyword :: opening :: (cs ++ closing :: (us ++ other :: vs)),
        ((hcond.append ((hsub.append (hsub'.cons_cons _)).cons_cons _)).cons_cons _).cons_cons _,
        .ifElse hk ho hdc hc hd hn hw hd'⟩

end Grammar

namespace Program

open Parse

/-! ## Leaving out whatever is not kept -/

/-- What is left of the tokens before the end is all before the end. -/
theorem body_eq_self_of_sublist {ts us : List Token} (h : us.Sublist (body ts)) : body us = us := by
  have hbody : ∀ t ∈ us, t.kind ≠ .eof := by
    intro t ht
    have hall := List.all_eq_true.mp List.all_takeWhile t (h.subset ht)
    simpa using hall
  simpa [body] using body_append hbody []

/-- **Recovery deletes.** The statements kept from any tokens are those of a program without faults
that is left when some of the tokens before the end are left out. -/
theorem exists_sublist_accepted (ts : List Token) :
    ∃ us, us.Sublist (body ts) ∧ ofTokens us = ⟨(ofTokens ts).statements, []⟩ := by
  obtain ⟨vs, hbody, ws, bad, hsub, hd, -⟩ := (reads_ofTokens ts).derives
  obtain ⟨us, hsub', hstrict⟩ := hd.exists_strict
  have hus : us.Sublist (body ts) := by
    rw [hbody, List.append_nil]
    exact hsub'.trans hsub
  exact ⟨us, hus, (ofTokens_eq_iff_strict (body_eq_self_of_sublist hus)).mpr hstrict⟩

end Program

end Lox
