import Mathlib.Tactic
import Lox.Proofs.Parse.Charge
import Lox.Proofs.Parse.Order
import Lox.Syntax.Descent

set_option autoImplicit false

/-! # The descent follows the rules

A cursor in the whole list of tokens and rules on the tokens that are left come to the same. From
the start of some tokens before the end, the walk of a rule does what the description of the rule
says of these tokens (`Parse.ReadsExpr.stepsTo`, `Parse.ReadsStmts.follows`). It stops at the start
of the rest, and a fault blames the token there. So every walk comes to an end, and a whole program
is read as it is from the tokens before the end (`Descent.program_eq`).
-/

namespace Lox

namespace Descent

open Program

variable {α β : Type} {ts us mid rest : List Token} {t : Token} {reports reports' : List ParseError}

/-! ## Where the cursor stands -/

/-- Where the last tokens before the end start. -/
def startOf (ts us : List Token) : Nat := (body ts).length - us.length

theorem startOf_cons (h : t :: us <:+ body ts) : startOf ts us = startOf ts (t :: us) + 1 := by
  have hle := h.length_le
  rw [List.length_cons] at hle
  rw [startOf, startOf, List.length_cons]
  omega

/-- The first token that is no token before the end is the end, if it is there. -/
theorem find?_eof (ts : List Token) :
    ts.find? (·.kind = .eof) = (ts.dropWhile (·.kind ≠ .eof)).head? := by
  induction ts with
  | nil => rfl
  | cons t ts ih =>
      by_cases ht : t.kind = .eof
      · simp [ht]
      · simpa [ht] using ih

/-- The tokens before the end, in two parts, and the tokens from the end on. -/
theorem eq_append_of_body {before : List Token} (h : before ++ us = body ts) :
    ts = before ++ (us ++ ts.dropWhile (·.kind ≠ .eof)) := by
  rw [← List.append_assoc, h]
  exact List.takeWhile_append_dropWhile.symm

/-- At the start of the last tokens, the cursor sees the first of them, or else the end. -/
theorem tokenAt_startOf (h : us <:+ body ts) :
    tokenAt ts (startOf ts us) = us.headD (ending ts) := by
  obtain ⟨before, hbefore⟩ := h
  have hstart : startOf ts us = before.length := by
    rw [startOf, ← hbefore, List.length_append, Nat.add_sub_cancel]
  have hat : ts[before.length]? = (us ++ ts.dropWhile (·.kind ≠ .eof)).head? := by
    conv_lhs => rw [eq_append_of_body hbefore]
    rw [List.getElem?_append_right (Nat.le_refl _), Nat.sub_self, List.head?_eq_getElem?]
  rw [tokenAt, hstart, hat]
  cases us with
  | cons t us => rfl
  | nil =>
      rw [List.nil_append, ← find?_eof, ending]
      cases ts.find? (·.kind = .eof) <;> rfl

/-- Behind a token, this token is in front of the cursor. -/
theorem previous_startOf (h : t :: us <:+ body ts) :
    (if startOf ts us = 0 then none else ts[startOf ts us - 1]?) = some t := by
  obtain ⟨before, hbefore⟩ := h
  have hstart : startOf ts us = before.length + 1 := by
    simp only [startOf, ← hbefore, List.length_append, List.length_cons]
    omega
  rw [if_neg (by omega), hstart, Nat.add_sub_cancel, eq_append_of_body hbefore,
    List.getElem?_append_right (Nat.le_refl _), Nat.sub_self]
  rfl

theorem ne_eof_of_suffix (h : t :: us <:+ body ts) : t.kind ≠ .eof :=
  ne_eof_of_mem_body t (h.subset List.mem_cons_self)

/-! ## Walks -/

/-- From the start of the tokens `us` on, the walk makes `a`, stops before `rest` and reports
`reports`. -/
def WalksTo (ts : List Token) (m : Walk α) (us : List Token) (a : α) (rest : List Token)
    (reports : List ParseError) : Prop :=
  ∀ earlier, m.run ⟨startOf ts us, earlier⟩ = some (a, ⟨startOf ts rest, earlier ++ reports⟩)

/-- The same of a walk that may stop at a fault, where `o` is what it makes or what is missing. The
fault blames the token at the cursor. -/
def StepsTo (ts : List Token) (m : Step α) (us : List Token) (o : Except Expected α)
    (rest : List Token) (reports : List ParseError) : Prop :=
  WalksTo ts m.run us (o.mapError fun missing => ⟨rest.headD (ending ts), .missing missing⟩) rest
    reports

namespace WalksTo

variable {m : Walk α} {k : α → Walk β} {a : α} {b : β}

theorem pure : WalksTo ts (pure a) us a us [] := fun earlier => by
  rw [List.append_nil]
  rfl

theorem bind (h : WalksTo ts m us a mid reports) (hk : WalksTo ts (k a) mid b rest reports') :
    WalksTo ts (m >>= k) us b rest (reports ++ reports') := fun earlier => by
  rw [StateT.run_bind, h earlier, ← List.append_assoc]
  exact hk (earlier ++ reports)

/-- A walk that reports nothing goes in front. -/
theorem next (h : WalksTo ts m us a mid []) (hk : WalksTo ts (k a) mid b rest reports) :
    WalksTo ts (m >>= k) us b rest reports :=
  h.bind hk

theorem map (h : WalksTo ts m us a rest reports) (f : α → β) :
    WalksTo ts (m >>= fun a => Pure.pure (f a)) us (f a) rest reports := by
  rw [← List.append_nil reports]
  exact h.bind .pure

theorem look (h : us <:+ body ts) : WalksTo ts (look ts) us (us.headD (ending ts)) us [] :=
  fun earlier => by
    rw [List.append_nil, ← tokenAt_startOf h]
    rfl

theorem advance (h : t :: us <:+ body ts) : WalksTo ts (advance ts) (t :: us) t us [] := by
  refine (look h).next ?_
  rw [List.headD_cons, if_pos (ne_eof_of_suffix h)]
  intro earlier
  rw [startOf_cons h, List.append_nil]
  rfl

/-- At the end the cursor stays where it is. -/
theorem advance_end : WalksTo ts (Descent.advance ts) [] (ending ts) [] [] := by
  refine (look (List.nil_suffix)).next ?_
  rw [List.headD_nil, if_neg (not_not_intro (kind_ending ts))]
  exact .pure

theorem previous? (us : List Token) :
    WalksTo ts (previous? ts) us
      (if startOf ts us = 0 then none else ts[startOf ts us - 1]?) us [] := fun earlier => by
  rw [List.append_nil]
  rfl

variable {p : Token.Kind → Bool}

theorem advanceOn (h : t :: us <:+ body ts) (ht : p t.kind) :
    WalksTo ts (advanceOn ts p) (t :: us) (some t) us [] := by
  refine (look h).next ?_
  rw [List.headD_cons, if_pos ⟨ht, ne_eof_of_suffix h⟩]
  exact (advance h).map some

theorem advanceOn_none (h : us <:+ body ts) (hn : Parse.nextIs p us = false) :
    WalksTo ts (Descent.advanceOn ts p) us none us [] := by
  refine (look h).next ?_
  have hstay : ¬(p (us.headD (ending ts)).kind ∧ (us.headD (ending ts)).kind ≠ .eof) := by
    rintro ⟨hp, hne⟩
    cases us with
    | nil => exact hne (kind_ending ts)
    | cons t us => exact absurd hp (by simpa using hn)
  rw [if_neg hstay]
  exact .pure

theorem report (e : ParseError) : WalksTo ts (report e) us () us [e] := fun _ => rfl

end WalksTo

namespace StepsTo

variable {m : Step α} {k : α → Step β} {a : α} {o : Except Expected β}

/-- A walk goes in front of a rule. -/
theorem lift_bind {w : Walk α} (h : WalksTo ts w us a mid reports)
    (hk : StepsTo ts (k a) mid o rest reports') :
    StepsTo ts (liftM w >>= k) us o rest (reports ++ reports') := by
  have hrun : (liftM w >>= k).run = w >>= fun a => (k a).run := ExceptT.run_bind_lift w k
  rw [StepsTo, hrun]
  exact h.bind hk

/-- A walk that reports nothing goes in front. -/
theorem walk {w : Walk α} (h : WalksTo ts w us a mid [])
    (hk : StepsTo ts (k a) mid o rest reports) : StepsTo ts (liftM w >>= k) us o rest reports :=
  lift_bind h hk

theorem pure : StepsTo ts (pure a) us (.ok a) us [] := WalksTo.pure

theorem only {w : Walk α} (h : WalksTo ts w us a rest reports) :
    StepsTo ts (liftM w) us (.ok a) rest reports :=
  WalksTo.map h Except.ok

theorem bind (h : StepsTo ts m us (.ok a) mid reports)
    (hk : StepsTo ts (k a) mid o rest reports') :
    StepsTo ts (m >>= k) us o rest (reports ++ reports') :=
  WalksTo.bind h hk

/-- A fault ends the walk. -/
theorem fails {missing : Expected} (h : StepsTo ts m us (.error missing) rest reports) :
    StepsTo ts (m >>= k) us (.error missing) rest reports := by
  rw [← List.append_nil reports]
  exact WalksTo.bind h WalksTo.pure

theorem map {o : Except Expected α} (h : StepsTo ts m us o rest reports) (f : α → β) :
    StepsTo ts (m >>= fun a => Pure.pure (f a)) us (o.map f) rest reports := by
  cases o with
  | ok a =>
      rw [← List.append_nil reports]
      exact h.bind .pure
  | error missing => exact h.fails

/-- The first token is looked at. -/
theorem looking {k : Token → Step β} (hus : us <:+ body ts)
    (h : StepsTo ts (k (us.headD (ending ts))) us o rest reports) :
    StepsTo ts (liftM (look ts) >>= k) us o rest reports :=
  walk (.look hus) h

variable {kind : Token.Kind} {missing : Expected}

theorem demand_found (hus : t :: us <:+ body ts) (hk : t.kind = kind) :
    StepsTo ts (demand ts kind missing) (t :: us) (.ok t) us [] := by
  refine looking hus ?_
  rw [List.headD_cons, if_pos hk]
  exact .only (.advance hus)

/-- A token of the kind has to be in front, and is. -/
theorem past {k : Token → Step β} (hus : t :: us <:+ body ts) (hk : t.kind = kind)
    (h : StepsTo ts (k t) us o rest reports) :
    StepsTo ts (demand ts kind missing >>= k) (t :: us) o rest reports :=
  bind (demand_found hus hk) h

theorem demand_absent (hus : us <:+ body ts) (hne : kind ≠ .eof)
    (hn : Parse.nextIs (· = kind) us = false) :
    StepsTo ts (demand ts kind missing) us (.error missing) us [] := by
  refine looking hus ?_
  have hother : (us.headD (ending ts)).kind ≠ kind := by
    cases us with
    | nil => exact fun hk => hne (hk.symm.trans (kind_ending ts))
    | cons t us => simpa using hn
  rw [if_neg hother]
  exact WalksTo.pure

variable {f : α → β}

/-- A token of the kind has to follow, and does. -/
theorem closed (h : StepsTo ts m us (.ok a) (t :: rest) reports) (hus : t :: rest <:+ body ts)
    (hk : t.kind = kind) :
    StepsTo ts (m >>= fun a => Descent.demand ts kind missing >>= fun _ => Pure.pure (f a)) us
      (.ok (f a)) rest reports := by
  rw [← List.append_nil reports]
  exact h.bind ((demand_found hus hk).map _)

/-- A token of the kind has to follow, but does not. -/
theorem unclosed (h : StepsTo ts m us (.ok a) rest reports) (hus : rest <:+ body ts)
    (hne : kind ≠ .eof) (hn : Parse.nextIs (· = kind) rest = false) :
    StepsTo ts (m >>= fun a => Descent.demand ts kind missing >>= fun _ => Pure.pure (f a)) us
      (.error missing) rest reports := by
  rw [← List.append_nil reports]
  exact h.bind (demand_absent hus hne hn).fails

end StepsTo

/-! ## Expressions -/

/-- Goes on after the left side of what may be an assignment. -/
def assigned (ts : List Token) (target : Expr) : Step Expr := do
  match ← advanceOn ts (· = .equal) with
  | none => return target
  | some equals =>
    let value ← expression ts
    match target with
    | .var name => return .assign name value
    | target =>
      report ⟨equals, .invalidTarget⟩
      return target

theorem expression_eq (ts : List Token) :
    expression ts = level ts .disjunction >>= assigned ts := by
  rw [expression, assignment, ← expression]
  rfl

theorem primary_of_leftParen (hus : t :: us <:+ body ts) (ht : t.kind = .leftParen)
    {o : Except Expected Expr}
    (h : StepsTo ts
      (do
        let inner ← expression ts
        let _ ← demand ts .rightParen .parenAfterExpression
        return .grouping inner) us o rest reports) :
    StepsTo ts (primary ts) (t :: us) o rest reports := by
  rw [primary]
  refine .looking hus ?_
  rw [List.headD_cons, Parse.atom?_of_leftParen ht, if_pos ht]
  exact .walk (.advance hus) h

/-- The walk of a rule for expressions. -/
def ofExprRule (ts : List Token) : Parse.ExprRule → Step Expr
  | .expression => expression ts
  | .assignment target => assigned ts target
  | .level l => level ts l
  | .operand l => operand ts l
  | .chain l left => chain ts l left
  | .unary => unary ts
  | .primary => primary ts
  | .terminated missing => terminated ts missing
  | .condition => condition ts

end Descent

namespace Parse

open Descent Program

variable {ts us rest : List Token} {reports : List ParseError}

theorem ReadsExpr.stepsTo {r : ExprRule} {o : Except Expected Expr}
    (h : ReadsExpr r us o rest reports) (hus : us <:+ body ts) :
    StepsTo ts (ofExprRule ts r) us o rest reports := by
  induction h with
  | expression ht _ iht ih =>
      rw [ofExprRule, expression_eq]
      exact (iht hus).bind (ih (ht.suffix.trans hus))
  | expressionFails _ ih =>
      rw [ofExprRule, expression_eq]
      exact (ih hus).fails
  | noEquals hn => exact .walk (.advanceOn_none hus hn) .pure
  | assign he _ ih =>
      refine .walk (.advanceOn hus (decide_eq_true he)) ?_
      exact (ih (suffix_of_cons hus)).map _
  | @misassign _ _ target equals _ _ he hn _ ih =>
      refine .walk (.advanceOn hus (decide_eq_true he)) ?_
      refine (ih (suffix_of_cons hus)).bind ?_
      -- the target is kept, whatever else than a name it is
      cases target with
      | var name => cases hn
      | _ => exact .lift_bind (.report (invalidTarget equals)) .pure
  | valueFails he _ ih =>
      refine .walk (.advanceOn hus (decide_eq_true he)) ?_
      exact (ih (suffix_of_cons hus)).fails
  | level hl _ ihl ih =>
      rw [ofExprRule, Descent.level]
      exact (ihl hus).bind (ih (hl.suffix.trans hus))
  | levelFails _ ih =>
      rw [ofExprRule, Descent.level]
      exact (ih hus).fails
  | tighter hm _ ih =>
      rw [ofExprRule, Descent.operand, hm]
      exact ih hus
  | tightest hm _ ih =>
      rw [ofExprRule, Descent.operand, hm]
      exact ih hus
  | chainEnd hn =>
      rw [ofExprRule, Descent.chain]
      exact .walk (.advanceOn_none hus hn) .pure
  | chain ho hr _ ihr ih =>
      rw [ofExprRule, Descent.chain]
      have hts := suffix_of_cons hus
      refine .walk (.advanceOn hus ho) ?_
      exact (ihr hts).bind (ih (hr.suffix.trans hts))
  | chainFails ho _ ih =>
      rw [ofExprRule, Descent.chain]
      refine .walk (.advanceOn hus ho) ?_
      exact (ih (suffix_of_cons hus)).fails
  | unary ho _ ih =>
      rw [ofExprRule, Descent.unary]
      refine .walk (.advanceOn hus ho) ?_
      exact (ih (suffix_of_cons hus)).map _
  | unaryFails ho _ ih =>
      rw [ofExprRule, Descent.unary]
      refine .walk (.advanceOn hus ho) ?_
      exact (ih (suffix_of_cons hus)).fails
  | primary hn _ ih =>
      rw [ofExprRule, Descent.unary]
      refine .walk (.advanceOn_none hus hn) ?_
      exact ih hus
  | atom ha =>
      rw [ofExprRule, Descent.primary]
      refine .looking hus ?_
      rw [List.headD_cons, ha]
      exact .walk (.advance hus) .pure
  | grouping ho h hc ih =>
      have hts := suffix_of_cons hus
      exact primary_of_leftParen hus ho ((ih hts).closed (h.suffix.trans hts) hc)
  | groupingFails ho _ ih => exact primary_of_leftParen hus ho (ih (suffix_of_cons hus)).fails
  | groupingOpen ho h hn ih =>
      have hts := suffix_of_cons hus
      exact primary_of_leftParen hus ho
        ((ih hts).unclosed (h.suffix.trans hts) Token.Kind.noConfusion hn)
  | @noExpression us hn =>
      rw [ofExprRule, Descent.primary]
      refine .looking hus ?_
      have hnext : (us.headD (ending ts)).atom? = none ∧
          (us.headD (ending ts)).kind ≠ .leftParen := by
        cases us with
        | nil => simp [Token.atom?, kind_ending]
        | cons t us => exact hn t rfl
      rw [hnext.1, if_neg hnext.2]
      exact WalksTo.pure
  | terminated h hs ih => exact (ih hus).closed (h.suffix.trans hus) hs
  | terminatedFails _ ih => exact (ih hus).fails
  | noSemicolon h hn ih =>
      exact (ih hus).unclosed (h.suffix.trans hus) Token.Kind.noConfusion hn
  | condition ho h hc ih =>
      have hts := suffix_of_cons hus
      exact .past hus ho ((ih hts).closed (h.suffix.trans hts) hc)
  | noCondition hn => exact (StepsTo.demand_absent hus Token.Kind.noConfusion hn).fails
  | conditionFails ho _ ih =>
      exact .past hus ho (ih (suffix_of_cons hus)).fails
  | conditionOpen ho h hn ih =>
      have hts := suffix_of_cons hus
      exact .past hus ho
        ((ih hts).unclosed (h.suffix.trans hts) Token.Kind.noConfusion hn)

end Parse

namespace Parse

variable {us : List Token}

theorem nextIs_eq_false_of_imp {p q : Token.Kind → Bool} (hpq : ∀ k, q k → p k)
    (h : nextIs p us = false) : nextIs q us = false := by
  cases us with
  | nil => rfl
  | cons t us =>
      rw [nextIs_cons] at h ⊢
      exact Bool.eq_false_iff.mpr fun hq => Bool.eq_false_iff.mp h (hpq _ hq)

end Parse

namespace Descent

open Program

variable {ts us rest : List Token} {t : Token} {reports : List ParseError}

/-! ## Going on after a fault -/

theorem walksTo_skip_end : WalksTo ts (skip ts) [] () [] [] := by
  rw [skip]
  refine (WalksTo.look List.nil_suffix).next ?_
  refine (WalksTo.previous? []).next ?_
  rw [List.headD_nil, if_pos (.inl (kind_ending ts))]
  exact .pure

/-- Behind the token `t`, the walk goes on where reading does after a fault at this token. -/
theorem walksTo_skip (h : t :: us <:+ body ts) :
    WalksTo ts (skip ts) us () (resume (t :: us)) [] := by
  have hus : us <:+ body ts := Parse.suffix_of_cons h
  induction us generalizing t with
  | nil =>
      have hresume : resume [t] = [] := List.eq_nil_of_length_eq_zero
        (Nat.le_zero.mp (length_resume_le [t]))
      rw [hresume]
      exact walksTo_skip_end
  | cons u us ih =>
      have hstop : u.kind = .eof ∨ (some t).any (·.kind = .semicolon) ∨ u.kind.startsStatement ↔
          t.kind = .semicolon ∨ ∃ v ∈ (u :: us).head?, v.kind.startsStatement := by
        simp [ne_eof_of_suffix hus]
      rw [skip, resume]
      refine (WalksTo.look hus).next ?_
      refine (WalksTo.previous? (u :: us)).next ?_
      rw [List.headD_cons, previous_startOf h]
      simp only [hstop]
      split
      · exact .pure
      · exact (WalksTo.advance hus).bind (ih hus (Parse.suffix_of_cons hus))

theorem walksTo_synchronize (h : us <:+ body ts) :
    WalksTo ts (synchronize ts) us () (resume us) [] := by
  cases us with
  | nil => exact WalksTo.advance_end.bind walksTo_skip_end
  | cons t us => exact (WalksTo.advance h).bind (walksTo_skip h)

/-! ## Statements -/

/-- The rule for declarations, before a faulty one is dropped. -/
def declared (ts : List Token) : Step Stmt := do
  match ← advanceOn ts (· = .kwVar) with
  | some _ => variableDeclaration ts
  | none => statement ts

theorem declaration_eq (ts : List Token) :
    declaration ts = (declared ts).run >>= fun
      | .ok s => pure (some s)
      | .error e => do
        report e
        synchronize ts
        return none := by
  rw [declaration]
  rfl

/-- The walk makes one statement, where the outcome is told as a list of one. -/
def StepsToOne (ts : List Token) (m : Step Stmt) (us : List Token)
    (o : Except Expected (List Stmt)) (rest : List Token) (reports : List ParseError) : Prop :=
  ∀ o', o = o'.map (fun s => [s]) → StepsTo ts m us o' rest reports

namespace StepsToOne

variable {m : Step Stmt}

theorem ok {s : Stmt} (h : StepsTo ts m us (.ok s) rest reports) :
    StepsToOne ts m us (.ok [s]) rest reports := by
  rintro (missing | s') ho
  · cases ho
  · cases ho
    exact h

theorem error {missing : Expected} (h : StepsTo ts m us (.error missing) rest reports) :
    StepsToOne ts m us (.error missing) rest reports := by
  rintro (missing' | s) ho
  · cases ho
    exact h
  · cases ho

end StepsToOne

/-- The walk of a rule for statements does what is described. -/
def Follows (ts : List Token) (r : Parse.StmtRule) (us : List Token)
    (o : Except Expected (List Stmt)) (rest : List Token) (reports : List ParseError) : Prop :=
  match r with
  | .declaration => StepsToOne ts (declared ts) us o rest reports
  | .statement => StepsToOne ts (statement ts) us o rest reports
  | .declarations inBlock =>
    ∀ ss, o = .ok ss → WalksTo ts (declarations ts inBlock) us ss rest reports

theorem walksTo_declaration {s : Stmt} (h : StepsTo ts (declared ts) us (.ok s) rest reports) :
    WalksTo ts (declaration ts) us (some s) rest reports := by
  rw [declaration_eq, ← List.append_nil reports]
  exact WalksTo.bind h .pure

theorem walksTo_declaration_dropped {missing : Expected} (hrest : rest <:+ body ts)
    (h : StepsTo ts (declared ts) us (.error missing) rest reports) :
    WalksTo ts (declaration ts) us none (resume rest)
      (reports ++ [⟨rest.headD (ending ts), .missing missing⟩]) := by
  rw [declaration_eq]
  refine WalksTo.bind h ?_
  exact (WalksTo.report _).bind ((walksTo_synchronize hrest).map _)

section Statements

variable {t : Token} {o : Except Expected Stmt}

theorem steps_expression (hus : us <:+ body ts) (hn : Parse.nextIs Parse.opensStatement us = false)
    (h : StepsTo ts (terminated ts .semicolonAfterExpression >>= fun e => pure (.expression e))
      us o rest reports) : StepsTo ts (statement ts) us o rest reports := by
  rw [statement]
  refine .walk (.advanceOn_none hus (Parse.nextIs_eq_false_of_imp ?_ hn)) ?_
  · simp [Parse.opensStatement]
  refine .walk (.advanceOn_none hus (Parse.nextIs_eq_false_of_imp ?_ hn)) ?_
  · simp [Parse.opensStatement]
  refine .walk (.advanceOn_none hus (Parse.nextIs_eq_false_of_imp ?_ hn)) h
  simp [Parse.opensStatement]

theorem steps_print (hus : t :: us <:+ body ts) (hk : t.kind = .kwPrint)
    (h : StepsTo ts (terminated ts .semicolonAfterValue >>= fun e => pure (.print e))
      us o rest reports) : StepsTo ts (statement ts) (t :: us) o rest reports := by
  rw [statement]
  refine .walk (.advanceOn_none hus (by simp [hk])) ?_
  exact .walk (.advanceOn hus (decide_eq_true hk)) h

theorem steps_block (hus : t :: us <:+ body ts) (hk : t.kind = .leftBrace)
    (h : StepsTo ts (block ts >>= fun ss => pure (.block ss)) us o rest reports) :
    StepsTo ts (statement ts) (t :: us) o rest reports := by
  rw [statement]
  refine .walk (.advanceOn_none hus (by simp [hk])) ?_
  refine .walk (.advanceOn_none hus (by simp [hk])) ?_
  exact .walk (.advanceOn hus (decide_eq_true hk)) h

theorem steps_conditional (hus : t :: us <:+ body ts) (hk : t.kind = .kwIf)
    (h : StepsTo ts (conditional ts) us o rest reports) :
    StepsTo ts (statement ts) (t :: us) o rest reports := by
  rw [statement]
  exact .walk (.advanceOn hus (decide_eq_true hk)) h

theorem steps_variable (hus : t :: us <:+ body ts) (hk : t.kind = .kwVar)
    (h : StepsTo ts (variableDeclaration ts) us o rest reports) :
    StepsTo ts (declared ts) (t :: us) o rest reports :=
  .walk (.advanceOn hus (decide_eq_true hk)) h

end Statements

section Conditional

variable {reports' reports'' : List ParseError} {mid mid' : List Token} {c : Expr} {s : Stmt}
  {t : Token} {missing : Expected} {o : Except Expected Stmt}

theorem steps_conditionFails
    (hc : StepsTo ts (condition ts) us (.error missing) rest reports) :
    StepsTo ts (conditional ts) us (.error missing) rest reports := by
  rw [conditional]
  exact hc.fails

theorem steps_thenFails (hc : StepsTo ts (condition ts) us (.ok c) mid reports)
    (h : StepsTo ts (statement ts) mid (.error missing) rest reports') :
    StepsTo ts (conditional ts) us (.error missing) rest (reports ++ reports') := by
  rw [conditional]
  exact hc.bind h.fails

theorem steps_ifThen (hc : StepsTo ts (condition ts) us (.ok c) mid reports)
    (h : StepsTo ts (statement ts) mid (.ok s) rest reports') (hrest : rest <:+ body ts)
    (hn : Parse.nextIs (· = .kwElse) rest = false) :
    StepsTo ts (conditional ts) us (.ok (.ifThen c s)) rest (reports ++ reports') := by
  rw [conditional, ← List.append_nil reports']
  exact hc.bind (h.bind (.walk (.advanceOn_none hrest hn) .pure))

theorem steps_else (hc : StepsTo ts (condition ts) us (.ok c) mid reports)
    (h : StepsTo ts (statement ts) mid (.ok s) (t :: mid') reports')
    (ht : t :: mid' <:+ body ts) (hk : t.kind = .kwElse)
    (he : StepsTo ts (statement ts) mid' o rest reports'') :
    StepsTo ts (conditional ts) us (o.map (.ifElse c s)) rest
      (reports ++ (reports' ++ reports'')) := by
  rw [conditional]
  exact hc.bind (h.bind (.walk (.advanceOn ht (decide_eq_true hk)) (he.map _)))

end Conditional

section Block

variable {ss : List Stmt}

theorem steps_block_closed {t : Token}
    (h : WalksTo ts (declarations ts true) us ss (t :: rest) reports)
    (hus : t :: rest <:+ body ts) (hk : t.kind = .rightBrace) :
    StepsTo ts (block ts) us (.ok ss) rest reports := by
  rw [block, ← List.append_nil reports]
  exact WalksTo.bind h (WalksTo.map (StepsTo.demand_found hus hk) _)

theorem steps_block_open (h : WalksTo ts (declarations ts true) us ss [] reports) :
    StepsTo ts (block ts) us (.error .braceAfterBlock) [] reports := by
  have hclosing : StepsTo ts (demand ts .rightBrace .braceAfterBlock) []
      (.error .braceAfterBlock) [] [] :=
    .demand_absent List.nil_suffix Token.Kind.noConfusion rfl
  rw [block, ← List.append_nil reports]
  exact WalksTo.bind h (WalksTo.map hclosing _)

end Block

/-- The declarations end where nothing else may follow. -/
theorem walksTo_declarations_end {inBlock : Bool} (hus : us <:+ body ts)
    (hn : Parse.stops inBlock us) : WalksTo ts (declarations ts inBlock) us [] us [] := by
  have hstop : (us.headD (ending ts)).kind = .eof ∨
      (inBlock ∧ (us.headD (ending ts)).kind = .rightBrace) := by
    cases us with
    | nil => exact .inl (kind_ending ts)
    | cons t us => exact .inr (by simpa using hn)
  rw [declarations]
  refine (WalksTo.look hus).next ?_
  rw [if_pos hstop]
  exact .pure

/-- Otherwise one of them is in front, which may have been dropped. -/
theorem walksTo_declarations {inBlock : Bool} {s : Option Stmt} {ss : List Stmt}
    {mid : List Token} {reports' : List ParseError} (hus : us <:+ body ts)
    (hn : Parse.stops inBlock us = false) (h : WalksTo ts (declaration ts) us s mid reports)
    (hs : WalksTo ts (declarations ts inBlock) mid ss rest reports') :
    WalksTo ts (declarations ts inBlock) us (s.toList ++ ss) rest (reports ++ reports') := by
  have hgo : ¬((us.headD (ending ts)).kind = .eof ∨
      (inBlock ∧ (us.headD (ending ts)).kind = .rightBrace)) := by
    cases us with
    | nil => cases hn
    | cons t us =>
        rintro (heof | hclosing)
        · exact ne_eof_of_suffix hus heof
        · rw [List.headD_cons] at hclosing
          simp [hclosing] at hn
  rw [declarations]
  refine (WalksTo.look hus).next ?_
  rw [if_neg hgo]
  exact h.bind (hs.map _)

end Descent

namespace Parse

open Descent Program

variable {ts us rest : List Token} {reports : List ParseError}

/-- The rule behind `var` reads what is described behind any such keyword. -/
theorem ReadsStmts.stepsTo_variableDeclaration {eof keyword : Token}
    {o : Except Expected (List Stmt)}
    (h : ReadsStmts eof .declaration (keyword :: us) o rest reports)
    (hk : keyword.kind = .kwVar) (hus : us <:+ body ts) :
    StepsToOne ts (Descent.variableDeclaration ts) us o rest reports := by
  cases h with
  | declare _ hn hs =>
      have hrest := suffix_of_cons hus
      refine .ok (.past hus hn ?_)
      exact .walk (.advanceOn_none hrest (by simp [hs])) (.past hrest hs .pure)
  | declareValue _ hn he h =>
      have hequals := suffix_of_cons hus
      refine .ok (.past hus hn ?_)
      refine .walk (.advanceOn hequals (decide_eq_true he)) ?_
      exact (h.stepsTo (suffix_of_cons hequals)).map _
  | noName _ hn => exact .error (StepsTo.demand_absent hus Token.Kind.noConfusion hn).fails
  | noValue _ hn he hs =>
      have hrest := suffix_of_cons hus
      refine .error (.past hus hn ?_)
      refine .walk (.advanceOn_none hrest he) ?_
      exact (StepsTo.demand_absent hrest Token.Kind.noConfusion hs).fails
  | valueFails _ hn he h =>
      have hequals := suffix_of_cons hus
      refine .error (.past hus hn ?_)
      refine .walk (.advanceOn hequals (decide_eq_true he)) ?_
      exact (h.stepsTo (suffix_of_cons hequals)).fails
  | statement hn => simp [hk] at hn

theorem ReadsStmts.declared {keyword : Token} {o : Except Expected (List Stmt)}
    (h : ReadsStmts (ending ts) .declaration (keyword :: us) o rest reports)
    (hk : keyword.kind = .kwVar) (hus : keyword :: us <:+ body ts) :
    StepsToOne ts (declared ts) (keyword :: us) o rest reports := fun o' ho =>
  steps_variable hus hk (h.stepsTo_variableDeclaration hk (suffix_of_cons hus) o' ho)

theorem ReadsStmts.follows {r : StmtRule} {o : Except Expected (List Stmt)}
    (h : ReadsStmts (ending ts) r us o rest reports) (hus : us <:+ body ts) :
    Follows ts r us o rest reports := by
  induction h with
  | nothing hn =>
      rintro ss ⟨⟩
      exact walksTo_declarations_end hus hn
  | kept hn h _ ih ihs =>
      rintro ss ⟨⟩
      have hs := ihs (h.suffix.trans hus) _ rfl
      exact walksTo_declarations hus hn (walksTo_declaration (ih hus _ rfl)) hs
  | @dropped _ _ rest _ _ _ _ _ hn h _ ih ihs =>
      rintro ss ⟨⟩
      have hrest := h.suffix.trans hus
      have hs := ihs ((resume_suffix rest).trans hrest) _ rfl
      have h := walksTo_declaration_dropped hrest (ih hus (.error _) rfl)
      exact walksTo_declarations hus hn h hs
  | declare hk hn hs => exact ReadsStmts.declared (.declare hk hn hs) hk hus
  | declareValue hk hn he h => exact ReadsStmts.declared (.declareValue hk hn he h) hk hus
  | noName hk hn => exact ReadsStmts.declared (.noName hk hn) hk hus
  | noValue hk hn he hs => exact ReadsStmts.declared (.noValue hk hn he hs) hk hus
  | valueFails hk hn he h => exact ReadsStmts.declared (.valueFails hk hn he h) hk hus
  | statement hn _ ih => exact fun o' ho => .walk (.advanceOn_none hus hn) (ih hus o' ho)
  | expression hn h => exact .ok (steps_expression hus hn ((h.stepsTo hus).map _))
  | expressionFails hn h => exact .error (steps_expression hus hn (h.stepsTo hus).fails)
  | print hk h => exact .ok (steps_print hus hk ((h.stepsTo (suffix_of_cons hus)).map _))
  | printFails hk h => exact .error (steps_print hus hk (h.stepsTo (suffix_of_cons hus)).fails)
  | block ho h hc ih =>
      have hts := suffix_of_cons hus
      exact .ok (steps_block hus ho
        ((steps_block_closed (ih hts _ rfl) (h.suffix.trans hts) hc).map _))
  | blockOpen ho _ ih =>
      have hts := suffix_of_cons hus
      exact .error (steps_block hus ho (steps_block_open (ih hts _ rfl)).fails)
  | conditionFails hk hc =>
      exact .error (steps_conditional hus hk
        (steps_conditionFails (hc.stepsTo (suffix_of_cons hus))))
  | thenFails hk hc _ ih =>
      have hts := suffix_of_cons hus
      have h := ih (hc.suffix.trans hts) (.error _) rfl
      exact .error (steps_conditional hus hk (steps_thenFails (hc.stepsTo hts) h))
  | ifThen hk hc h hn ih =>
      have hts := suffix_of_cons hus
      have hmid := hc.suffix.trans hts
      exact .ok (steps_conditional hus hk
        (steps_ifThen (hc.stepsTo hts) (ih hmid _ rfl) (h.suffix.trans hmid) hn))
  | elseFails hk hc h ho _ ih ihe =>
      have hts := suffix_of_cons hus
      have hmid := hc.suffix.trans hts
      have helse := h.suffix.trans hmid
      exact .error (steps_conditional hus hk (steps_else (hc.stepsTo hts) (ih hmid _ rfl) helse ho
        (ihe (suffix_of_cons helse) (.error _) rfl)))
  | ifElse hk hc h ho _ ih ihe =>
      have hts := suffix_of_cons hus
      have hmid := hc.suffix.trans hts
      have helse := h.suffix.trans hmid
      exact .ok (steps_conditional hus hk (steps_else (hc.stepsTo hts) (ih hmid _ rfl) helse ho
        (ihe (suffix_of_cons helse) (.ok _) rfl)))

/-- The rule behind `if` reads what is described behind any such keyword. -/
theorem ReadsStmts.stepsTo_conditional {keyword : Token} {o : Except Expected (List Stmt)}
    (h : ReadsStmts (ending ts) .statement (keyword :: us) o rest reports)
    (hk : keyword.kind = .kwIf) (hus : us <:+ body ts) :
    StepsToOne ts (Descent.conditional ts) us o rest reports := by
  cases h with
  | expression hn | expressionFails hn => simp [hk, opensStatement] at hn
  | print hp | printFails hp => cases hk.symm.trans hp
  | block ho | blockOpen ho => cases hk.symm.trans ho
  | conditionFails _ hc => exact .error (steps_conditionFails (hc.stepsTo hus))
  | thenFails _ hc h =>
      have hmid := hc.suffix.trans hus
      exact .error (steps_thenFails (hc.stepsTo hus) (h.follows hmid (.error _) rfl))
  | ifThen _ hc h hn =>
      have hmid := hc.suffix.trans hus
      exact .ok (steps_ifThen (hc.stepsTo hus) (h.follows hmid _ rfl) (h.suffix.trans hmid) hn)
  | elseFails _ hc h ho he =>
      have hmid := hc.suffix.trans hus
      have helse := h.suffix.trans hmid
      exact .error (steps_else (hc.stepsTo hus) (h.follows hmid _ rfl) helse ho
        (he.follows (suffix_of_cons helse) (.error _) rfl))
  | ifElse _ hc h ho he =>
      have hmid := hc.suffix.trans hus
      have helse := h.suffix.trans hmid
      exact .ok (steps_else (hc.stepsTo hus) (h.follows hmid _ rfl) helse ho
        (he.follows (suffix_of_cons helse) (.ok _) rfl))

/-- The rule behind an opening brace reads what is described behind any such brace. -/
theorem ReadsStmts.stepsTo_block {opening : Token} {o : Except Expected (List Stmt)}
    (h : ReadsStmts (ending ts) .statement (opening :: us) o rest reports)
    (hk : opening.kind = .leftBrace) (hus : us <:+ body ts) :
    StepsToOne ts (Descent.block ts >>= fun ss => pure (.block ss)) us o rest reports := by
  cases h with
  | expression hn | expressionFails hn => simp [hk, opensStatement] at hn
  | print hp | printFails hp => cases hk.symm.trans hp
  | block _ h hc =>
      have hclosing := h.suffix.trans hus
      exact .ok ((steps_block_closed (h.follows hus _ rfl) hclosing hc).map _)
  | blockOpen _ h => exact .error (steps_block_open (h.follows hus _ rfl)).fails
  | conditionFails hi | thenFails hi | ifThen hi | elseFails hi | ifElse hi =>
      cases hk.symm.trans hi

/-- A declaration is read that may be dropped. -/
theorem Declares.walksTo {s : Option Stmt} (h : Declares (ending ts) us s rest reports)
    (hus : us <:+ body ts) : WalksTo ts (Descent.declaration ts) us s rest reports := by
  cases h with
  | kept h => exact walksTo_declaration (h.follows hus _ rfl)
  | dropped h =>
      have hrest := h.suffix.trans hus
      exact walksTo_declaration_dropped hrest (h.follows hus (.error _) rfl)

end Parse

namespace Descent

open Program

/-- The whole walk reads the program that is read from the tokens before the end. -/
theorem program_eq (ts : List Token) : program ts = some (Program.ofTokens ts) := by
  have h : (declarations ts false).run ⟨startOf ts (body ts), []⟩ =
      some ((ofTokens ts).statements, ⟨startOf ts [], (ofTokens ts).errors⟩) :=
    (reads_ofTokens ts).follows List.suffix_rfl _ rfl []
  rw [startOf, Nat.sub_self] at h
  rw [program, h]
  rfl

end Descent

end Lox
