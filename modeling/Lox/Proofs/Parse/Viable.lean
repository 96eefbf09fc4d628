import Lox.Proofs.Parse.Draft

set_option autoImplicit false

/-! # Where the first fatal fault lies

The rules reject tokens neither too late nor too early: what a rejecting run has taken can be
completed to a program (`ReadsExpr.completable`, `FirstFault.completable`), but not together with
the blamed token, whatever follows it (`FirstFault.lookahead`, `FirstFault.fatal`).

`FirstFault` finds the first fatal fault of a run: in front of it there are only declarations and
branches without a fatal fault. It is the first that is reported (`ReadsStmts.firstFault`).
-/

namespace Lox

namespace Parse

open Grammar Program

/-! ## Expressions that can be completed -/

theorem expression_nil : Expression .expression [word .kwNil "nil"] (.literal .nil) [] := by
  have hnil : Expression .unary [word .kwNil "nil"] (.literal .nil) [] :=
    .primary (.atom (.nil rfl))
  have hlevel := rule_level_of_unary
    (P := fun r => Expression r [word .kwNil "nil"] (.literal .nil) []) (fun _ h => .single h) hnil
  exact .loosest (hlevel _)

/-- The tokens taken by a rejecting run are the front of what its rule can derive. -/
theorem ReadsExpr.completable {r : ExprRule} {ts rest : List Token} {missing : Expected}
    {reports : List ParseError} (h : ReadsExpr r ts (.error missing) rest reports) :
    ∃ us vs e bad, ts = us ++ rest ∧ r.Derives (us ++ vs) e bad := by
  generalize ho : Except.error missing = o at h
  induction h generalizing missing with
  | expression ht _ _ ih =>
      obtain ⟨us, bad, rfl, -, hd⟩ := ht.derives
      obtain ⟨vs, ws, e, bad', rfl, hd'⟩ := ih ho
      refine ⟨us ++ vs, ws, e, bad ++ bad', by simp, ?_⟩
      rw [List.append_assoc]
      exact hd' us bad hd
  | expressionFails _ ih =>
      obtain ⟨us, vs, e, bad, rfl, hd⟩ := ih rfl
      exact ⟨us, vs, e, bad, rfl, hd.loosest⟩
  | @valueFails _ _ target equals _ _ he _ ih =>
      obtain ⟨us, vs, e, bad, rfl, hd⟩ := ih rfl
      by_cases hn : target.isName
      · obtain ⟨name, rfl⟩ := isName_eq_true hn
        refine ⟨equals :: us, vs, .assign name e, bad, rfl, fun ws bad' hw => ?_⟩
        obtain ⟨rfl, hk, rfl⟩ := hw.eq_name
        exact .assign hk he hd
      · refine ⟨equals :: us, vs, target, bad ++ [equals], rfl, fun ws bad' hw => ?_⟩
        simpa using Expression.misassign hw (by simpa using hn) he hd
  | level hl _ _ ih =>
      obtain ⟨us, bad, rfl, -, hd⟩ := hl.derives
      obtain ⟨vs, ws, e, bad', rfl, hd'⟩ := ih ho
      refine ⟨us ++ vs, ws, e, bad ++ bad', by simp, ?_⟩
      rw [List.append_assoc]
      exact hd' us bad hd.single
  | levelFails _ ih =>
      obtain ⟨us, vs, e, bad, rfl, hd⟩ := ih rfl
      exact ⟨us, vs, e, bad, rfl, hd.single⟩
  | tighter hm _ ih =>
      obtain ⟨us, vs, e, bad, rfl, hd⟩ := ih ho
      refine ⟨us, vs, e, bad, rfl, ?_⟩
      show Expression (Grammar.operand _) (us ++ vs) e bad
      rw [operand_eq_level hm]
      exact hd
  | tightest hm _ ih =>
      obtain ⟨us, vs, e, bad, rfl, hd⟩ := ih ho
      refine ⟨us, vs, e, bad, rfl, ?_⟩
      show Expression (Grammar.operand _) (us ++ vs) e bad
      rw [operand_eq_unary hm]
      exact hd
  | @chain _ _ _ operator _ _ _ _ _ _ hop hr _ _ ih =>
      obtain ⟨us, bad, rfl, -, hd⟩ := hr.derives
      obtain ⟨vs, ws, e, bad', rfl, hd'⟩ := ih ho
      refine ⟨operator :: us ++ vs, ws, e, bad ++ bad', by simp, fun xs bad'' hx => ?_⟩
      simpa using hd' (xs ++ operator :: us) (bad'' ++ bad) (.of_joins hx hop hd)
  | @chainFails l left operator _ _ _ _ hop _ ih =>
      obtain ⟨us, vs, e, bad, rfl, hd⟩ := ih rfl
      refine ⟨operator :: us, vs, l.node left operator e, bad, rfl, fun xs bad' hx => ?_⟩
      exact .of_joins hx hop hd
  | @unaryFails operator _ _ _ _ hop _ ih =>
      obtain ⟨us, vs, e, bad, rfl, hd⟩ := ih rfl
      exact ⟨operator :: us, vs, .unary operator e, bad, rfl, .unary (isUnary_iff.mp hop) hd⟩
  | primary _ _ ih =>
      obtain ⟨us, vs, e, bad, rfl, hd⟩ := ih ho
      exact ⟨us, vs, e, bad, rfl, hd.primary⟩
  | @groupingFails opening _ _ _ _ hop _ ih =>
      obtain ⟨us, vs, e, bad, rfl, hd⟩ := ih rfl
      refine ⟨opening :: us, vs ++ [word .rightParen ")"], .grouping e, bad, rfl, ?_⟩
      rw [List.cons_append, ← List.append_assoc]
      exact .grouping hop hd rfl
  | @groupingOpen opening _ _ _ _ hop h _ _ =>
      obtain ⟨us, bad, rfl, -, hd⟩ := h.derives
      exact ⟨opening :: us, [word .rightParen ")"], _, bad, rfl, .grouping hop hd rfl⟩
  | noExpression =>
      exact ⟨[], [word .kwNil "nil"], _, [], rfl, .atom (.nil rfl)⟩
  | terminatedFails _ ih =>
      obtain ⟨us, vs, e, bad, rfl, hd⟩ := ih rfl
      exact ⟨us, vs ++ [word .semicolon ";"], e, bad, rfl, us ++ vs, word .semicolon ";",
        (List.append_assoc _ _ _).symm, rfl, hd⟩
  | noSemicolon h _ _ =>
      obtain ⟨us, bad, rfl, -, hd⟩ := h.derives
      exact ⟨us, [word .semicolon ";"], _, bad, rfl, us, _, rfl, rfl, hd⟩
  | noCondition =>
      exact ⟨[], [word .leftParen "(", word .kwNil "nil", word .rightParen ")"], _, [], rfl,
        _, [word .kwNil "nil"], _, rfl, rfl, rfl, expression_nil⟩
  | @conditionFails opening _ _ _ _ hop _ ih =>
      obtain ⟨us, vs, e, bad, rfl, hd⟩ := ih rfl
      exact ⟨opening :: us, vs ++ [word .rightParen ")"], e, bad, rfl, opening, us ++ vs,
        word .rightParen ")", by simp, hop, rfl, hd⟩
  | @conditionOpen opening _ _ _ _ hop h _ _ =>
      obtain ⟨us, bad, rfl, -, hd⟩ := h.derives
      exact ⟨opening :: us, [word .rightParen ")"], _, bad, rfl, opening, us, _, rfl, hop, rfl, hd⟩
  | _ => cases ho

/-! ## Statements that can be completed -/

variable {eof : Token}

/-- Without a fatal fault, what is read is derived from all the tokens taken. -/
theorem ReadsStmts.derives_all {r : StmtRule} {ts rest : List Token} {ss : List Stmt}
    {reports : List ParseError} (h : ReadsStmts eof r ts (.ok ss) rest reports)
    (hn : ∀ e ∈ reports, e.isFatal = false) :
    ∃ us bad, ts = us ++ rest ∧ Statements r.sentence us ss bad := by
  obtain ⟨us, rfl, vs, bad, -, hd, hall⟩ := h.derives
  obtain ⟨rfl, -⟩ := hall hn
  exact ⟨vs, bad, rfl, hd⟩

/-- The tokens are the front of what the rule can derive. -/
def Completable (r : Sentence) (us : List Token) : Prop :=
  ∃ vs ss bad, Statements r (us ++ vs) ss bad

/-- A conditional can be completed if its first branch can. -/
theorem completable_ifThen {keyword : Token} {cs us rest : List Token} {c : Expr}
    {reports : List ParseError} (hk : keyword.kind = .kwIf)
    (hc : ReadsExpr .condition (cs ++ rest) (.ok c) rest reports)
    (h : Completable .statement us) : Completable .statement (keyword :: (cs ++ us)) := by
  obtain ⟨_, bad, hcs, -, opening, xs, closing, rfl, ho, hcl, hd⟩ := hc.derives
  obtain rfl := List.append_cancel_right hcs
  obtain ⟨vs, ss, bad', hs⟩ := h
  obtain ⟨s, rfl⟩ := hs.eq_singleton
  exact ⟨vs, _, _, by simpa using Statements.ifThen hk ho hd hcl hs⟩

/-- A conditional can be completed if its second branch can. -/
theorem completable_ifElse {keyword other : Token} {cs us ts rest : List Token} {c : Expr}
    {s : Stmt} {reports reports' : List ParseError} (hk : keyword.kind = .kwIf)
    (hc : ReadsExpr .condition (cs ++ ts) (.ok c) ts reports)
    (hs : ReadsStmts eof .statement ts (.ok [s]) (other :: rest) reports')
    (hn : ∀ e ∈ reports', e.isFatal = false) (ho : other.kind = .kwElse)
    (h : Completable .statement us) :
    ∃ ws, ts = ws ++ other :: rest ∧
      Completable .statement (keyword :: (cs ++ (ws ++ other :: us))) := by
  obtain ⟨_, bad, hcs, -, opening, xs, closing, rfl, hop, hcl, hd⟩ := hc.derives
  obtain rfl := List.append_cancel_right hcs
  have htakes := hs.takesElse_eq_false (by simpa using ho)
  obtain ⟨ws, bad', rfl, hthen⟩ := hs.derives_all hn
  obtain ⟨vs, ss, bad'', hv⟩ := h
  obtain ⟨t, rfl⟩ := hv.eq_singleton
  exact ⟨ws, rfl, vs, _, _, by simpa using Statements.ifElse hk hop hd hcl hthen htakes ho hv⟩

/-- The tokens taken by a rejecting run without a fatal fault before are the front of what its rule
can derive. -/
theorem ReadsStmts.completable {r : StmtRule} {ts rest : List Token} {missing : Expected}
    {reports : List ParseError} (h : ReadsStmts eof r ts (.error missing) rest reports)
    (hn : ∀ e ∈ reports, e.isFatal = false) :
    ∃ us, ts = us ++ rest ∧ Completable r.sentence us := by
  generalize ho : Except.error missing = o at h
  induction h generalizing missing with
  | nothing | kept | dropped | declare | declareValue | expression | print | block | ifThen
  | ifElse => cases ho
  | @noName keyword _ hk _ =>
      exact ⟨[keyword], rfl, [word .identifier "a", word .semicolon ";"], _, _,
        .declare hk rfl rfl⟩
  | @noValue keyword name _ hk hname _ _ =>
      exact ⟨[keyword, name], rfl, [word .semicolon ";"], _, _, .declare hk hname rfl⟩
  | @valueFails keyword name equals _ _ _ _ hk hname he h =>
      obtain ⟨us, vs, e, bad, rfl, ws, semicolon, hws, hs, hd⟩ := h.completable
      refine ⟨keyword :: name :: equals :: us, rfl, vs, [.declare name (some e)], bad, ?_⟩
      simpa [StmtRule.sentence, hws] using Statements.declareValue hk hname he hd hs
  | statement _ _ ih =>
      obtain ⟨us, rfl, vs, ss, bad, hd⟩ := ih hn ho
      obtain ⟨s, rfl⟩ := hd.eq_singleton
      exact ⟨us, rfl, vs, [s], bad, .statement hd⟩
  | expressionFails _ h =>
      obtain ⟨us, vs, e, bad, rfl, ws, semicolon, hws, hs, hd⟩ := h.completable
      refine ⟨us, rfl, vs, [.expression e], bad, ?_⟩
      simpa [StmtRule.sentence, hws] using Statements.expression hd hs
  | @printFails keyword _ _ _ _ hk h =>
      obtain ⟨us, vs, e, bad, rfl, ws, semicolon, hws, hs, hd⟩ := h.completable
      refine ⟨keyword :: us, rfl, vs, [.print e], bad, ?_⟩
      simpa [StmtRule.sentence, hws] using Statements.print hk hd hs
  | @blockOpen opening _ ss _ hop h _ =>
      obtain ⟨us, bad, rfl, hd⟩ := h.derives_all hn
      refine ⟨opening :: us, by simp, [word .rightBrace "\x7d"], [.block ss], bad, ?_⟩
      exact .block hop hd rfl
  | @conditionFails keyword _ _ _ _ hk h =>
      obtain ⟨us, vs, e, bad, rfl, opening, ws, closing, hws, hop, hc, hd⟩ := h.completable
      have hbranch : Statements .statement [word .kwNil "nil", word .semicolon ";"]
          [.expression (.literal .nil)] [] := .expression expression_nil rfl
      have hif := Statements.ifThen hk hop hd hc hbranch
      refine ⟨keyword :: us, rfl, vs ++ [word .kwNil "nil", word .semicolon ";"],
        [.ifThen e (.expression (.literal .nil))], bad ++ [], ?_⟩
      rw [List.cons_append, ← List.append_assoc, hws]
      simpa [StmtRule.sentence] using hif
  | thenFails hk hc _ ih =>
      obtain ⟨cs, rfl, -⟩ := hc.lookahead
      obtain ⟨us, rfl, hus⟩ := ih (fun e he => hn e (List.mem_append_right _ he)) rfl
      exact ⟨_, by simp, completable_ifThen hk hc hus⟩
  | elseFails hk hc hs hw _ _ ihe =>
      obtain ⟨hn', hn''⟩ := List.forall_mem_append.mp (List.forall_mem_append.mp hn).2
      obtain ⟨cs, rfl, -⟩ := hc.lookahead
      obtain ⟨us, rfl, hus⟩ := ihe hn'' rfl
      obtain ⟨ws, rfl, hws⟩ := completable_ifElse hk hc hs hn' hw hus
      exact ⟨_, by simp, hws⟩

/-! ## The first fatal fault -/

/-- `FirstFault eof r ts stop missing`: on the tokens `ts`, the rule `r` first demands something
that is not there in front of `stop`. -/
inductive FirstFault (eof : Token) : StmtRule → List Token → List Token → Expected → Prop
  | rejected {r : StmtRule} {ts stop : List Token} {missing : Expected}
      {reports : List ParseError} (h : ReadsStmts eof r ts (.error missing) stop reports)
      (hn : ∀ e ∈ reports, e.isFatal = false) : FirstFault eof r ts stop missing
  | first {inBlock : Bool} {ts stop : List Token} {missing : Expected}
      (hs : stops inBlock ts = false) (h : FirstFault eof .declaration ts stop missing) :
      FirstFault eof (.declarations inBlock) ts stop missing
  | later {inBlock : Bool} {ts rest stop : List Token} {s : Stmt} {missing : Expected}
      {reports : List ParseError} (hs : stops inBlock ts = false)
      (hd : ReadsStmts eof .declaration ts (.ok [s]) rest reports)
      (hn : ∀ e ∈ reports, e.isFatal = false)
      (h : FirstFault eof (.declarations inBlock) rest stop missing) :
      FirstFault eof (.declarations inBlock) ts stop missing
  | statement {ts stop : List Token} {missing : Expected}
      (hv : nextIs (· = .kwVar) ts = false) (h : FirstFault eof .statement ts stop missing) :
      FirstFault eof .declaration ts stop missing
  | block {opening : Token} {ts stop : List Token} {missing : Expected}
      (ho : opening.kind = .leftBrace) (h : FirstFault eof (.declarations true) ts stop missing) :
      FirstFault eof .statement (opening :: ts) stop missing
  | thenBranch {keyword : Token} {ts rest stop : List Token} {c : Expr} {missing : Expected}
      {reports : List ParseError} (hk : keyword.kind = .kwIf)
      (hc : ReadsExpr .condition ts (.ok c) rest reports)
      (h : FirstFault eof .statement rest stop missing) :
      FirstFault eof .statement (keyword :: ts) stop missing
  | elseBranch {keyword other : Token} {ts rest rest' stop : List Token} {c : Expr} {s : Stmt}
      {missing : Expected} {reports reports' : List ParseError} (hk : keyword.kind = .kwIf)
      (hc : ReadsExpr .condition ts (.ok c) rest reports)
      (hs : ReadsStmts eof .statement rest (.ok [s]) (other :: rest') reports')
      (hn : ∀ e ∈ reports', e.isFatal = false) (ho : other.kind = .kwElse)
      (h : FirstFault eof .statement rest' stop missing) :
      FirstFault eof .statement (keyword :: ts) stop missing

/-- The first fatal report is among the first reports, or there is none among these. -/
theorem find?_fatal_append {reports reports' : List ParseError} {e : ParseError}
    (h : (reports ++ reports').find? (·.isFatal) = some e) :
    reports.find? (·.isFatal) = some e ∨
      (∀ e ∈ reports, e.isFatal = false) ∧ reports'.find? (·.isFatal) = some e := by
  rw [List.find?_append] at h
  cases hf : reports.find? (·.isFatal) with
  | some e' =>
      rw [hf] at h
      exact .inl h
  | none =>
      rw [hf] at h
      exact .inr ⟨by simpa using hf, h⟩

theorem not_fatal_of_find? {reports : List ParseError} {e : ParseError}
    (h : reports.find? (·.isFatal) = some e) (hn : ∀ e ∈ reports, e.isFatal = false) : False := by
  have he := List.find?_some h
  simp [hn e (List.mem_of_find?_eq_some h)] at he

/-- The first fatal report of a run is about its first fatal fault. -/
theorem ReadsStmts.firstFault {r : StmtRule} {ts rest : List Token}
    {o : Except Expected (List Stmt)} {reports : List ParseError} {e : ParseError}
    (h : ReadsStmts eof r ts o rest reports) (he : reports.find? (·.isFatal) = some e) :
    ∃ stop missing, FirstFault eof r ts stop missing ∧ e = ⟨stop.headD eof, .missing missing⟩ := by
  induction h with
  | nothing | declare | noName | noValue => cases he
  | declareValue _ _ _ h | valueFails _ _ _ h | expression _ h | expressionFails _ h | print _ h
  | printFails _ h | conditionFails _ h => exact (not_fatal_of_find? he h.nonfatal).elim
  | kept hs hd _ ih ihs =>
      rcases find?_fatal_append he with he | ⟨hn, he⟩
      · obtain ⟨stop, missing, hf, rfl⟩ := ih he
        exact ⟨stop, missing, .first hs hf, rfl⟩
      · obtain ⟨stop, missing, hf, rfl⟩ := ihs he
        exact ⟨stop, missing, .later hs hd hn hf, rfl⟩
  | @dropped _ _ rest _ missing _ _ _ hs hd _ ih _ =>
      rcases find?_fatal_append he with he | ⟨hn, -⟩
      · rcases find?_fatal_append he with he | ⟨hn, he⟩
        · obtain ⟨stop, missing, hf, rfl⟩ := ih he
          exact ⟨stop, missing, .first hs hf, rfl⟩
        · -- nothing fatal was reported before the declaration was rejected
          rw [List.find?_cons_of_pos rfl] at he
          exact ⟨rest, missing, .first hs (.rejected hd hn), (Option.some.inj he).symm⟩
      · have hlast := hn _ (List.mem_append_right _ (List.mem_singleton_self _))
        cases hlast
  | statement hv _ ih =>
      obtain ⟨stop, missing, hf, rfl⟩ := ih he
      exact ⟨stop, missing, .statement hv hf, rfl⟩
  | block ho _ _ ih | blockOpen ho _ ih =>
      obtain ⟨stop, missing, hf, rfl⟩ := ih he
      exact ⟨stop, missing, .block ho hf, rfl⟩
  | thenFails hk hc _ ih | ifThen hk hc _ _ ih =>
      rcases find?_fatal_append he with he | ⟨-, he⟩
      · exact (not_fatal_of_find? he hc.nonfatal).elim
      · obtain ⟨stop, missing, hf, rfl⟩ := ih he
        exact ⟨stop, missing, .thenBranch hk hc hf, rfl⟩
  | elseFails hk hc hs ho _ ih ihe | ifElse hk hc hs ho _ ih ihe =>
      rcases find?_fatal_append he with he | ⟨-, he⟩
      · exact (not_fatal_of_find? he hc.nonfatal).elim
      · rcases find?_fatal_append he with he | ⟨hn, he⟩
        · obtain ⟨stop, missing, hf, rfl⟩ := ih he
          exact ⟨stop, missing, .thenBranch hk hc hf, rfl⟩
        · obtain ⟨stop, missing, hf, rfl⟩ := ihe he
          exact ⟨stop, missing, .elseBranch hk hc hs hn ho hf, rfl⟩

/-- The tokens before the first fatal fault are the front of what the rule can derive. -/
theorem FirstFault.completable {r : StmtRule} {ts stop : List Token} {missing : Expected}
    (h : FirstFault eof r ts stop missing) :
    ∃ us, ts = us ++ stop ∧ Completable r.sentence us := by
  induction h with
  | rejected h hn => exact h.completable hn
  | first _ _ ih =>
      obtain ⟨us, rfl, vs, ss, bad, hd⟩ := ih
      obtain ⟨s, rfl⟩ := hd.eq_singleton_of_declaration
      exact ⟨us, rfl, vs, [s], _, by
        simpa [StmtRule.sentence] using Statements.cons hd .nil⟩
  | later _ hd hn _ ih =>
      obtain ⟨us, bad, rfl, hdecl⟩ := hd.derives_all hn
      obtain ⟨us', rfl, vs, ss, bad', hds⟩ := ih
      exact ⟨us ++ us', by simp, vs, _, _, by
        simpa [StmtRule.sentence] using Statements.cons hdecl hds⟩
  | statement _ _ ih =>
      obtain ⟨us, rfl, vs, ss, bad, hd⟩ := ih
      obtain ⟨s, rfl⟩ := hd.eq_singleton
      exact ⟨us, rfl, vs, [s], bad, .statement hd⟩
  | @block opening _ _ _ ho _ ih =>
      obtain ⟨us, rfl, vs, ss, bad, hd⟩ := ih
      refine ⟨opening :: us, rfl, vs ++ [word .rightBrace "\x7d"], [.block ss], bad, ?_⟩
      rw [List.cons_append, ← List.append_assoc]
      exact .block ho hd rfl
  | thenBranch hk hc _ ih =>
      obtain ⟨cs, rfl, -⟩ := hc.lookahead
      obtain ⟨us, rfl, hus⟩ := ih
      exact ⟨_, by simp, completable_ifThen hk hc hus⟩
  | elseBranch hk hc hs hn ho _ ih =>
      obtain ⟨cs, rfl, -⟩ := hc.lookahead
      obtain ⟨us, rfl, hus⟩ := ih
      obtain ⟨ws, rfl, hws⟩ := completable_ifElse hk hc hs hn ho hus
      exact ⟨_, by simp, hws⟩

/-- The first fatal fault does not depend on what stands behind the blamed token. -/
theorem FirstFault.lookahead {r : StmtRule} {ts stop : List Token} {missing : Expected}
    (h : FirstFault eof r ts stop missing) :
    ∃ us, ts = us ++ stop ∧ ∀ stop' : List Token, stop'.head? = stop.head? →
      FirstFault eof r (us ++ stop') stop' missing := by
  induction h with
  | rejected h hn =>
      obtain ⟨us, rfl, hrun⟩ := h.lookahead
      exact ⟨us, rfl, fun stop' hr => .rejected (hrun eof stop' hr fun _ => rfl) hn⟩
  | first hs _ ih =>
      obtain ⟨us, rfl, hf⟩ := ih
      exact ⟨us, rfl, fun stop' hr =>
        .first ((stops_congr (head?_append_congr hr us)).trans hs) (hf stop' hr)⟩
  | later hs hd hn _ ih =>
      obtain ⟨us, rfl, hrun⟩ := hd.lookahead
      obtain ⟨vs, rfl, hf⟩ := ih
      refine ⟨us ++ vs, by simp, fun stop' hr => ?_⟩
      have hr' := head?_append_congr hr vs
      rw [List.append_assoc]
      exact .later ((stops_congr (head?_append_congr hr' us)).trans hs)
        (hrun eof _ hr' fun _ => rfl) hn (hf stop' hr)
  | statement hv _ ih =>
      obtain ⟨us, rfl, hf⟩ := ih
      exact ⟨us, rfl, fun stop' hr =>
        .statement ((nextIs_congr (head?_append_congr hr us)).trans hv) (hf stop' hr)⟩
  | @block opening _ _ _ ho _ ih =>
      obtain ⟨us, rfl, hf⟩ := ih
      exact ⟨opening :: us, rfl, fun stop' hr => .block ho (hf stop' hr)⟩
  | @thenBranch keyword _ _ _ _ _ _ hk hc _ ih =>
      obtain ⟨cs, rfl, hrunc⟩ := hc.lookahead
      obtain ⟨us, rfl, hf⟩ := ih
      refine ⟨keyword :: (cs ++ us), by simp, fun stop' hr => ?_⟩
      rw [List.cons_append, List.append_assoc]
      exact .thenBranch hk (hrunc _ (head?_append_congr hr us)) (hf stop' hr)
  | @elseBranch keyword other _ _ _ _ _ _ _ _ _ hk hc hs hn ho _ ih =>
      obtain ⟨cs, rfl, hrunc⟩ := hc.lookahead
      obtain ⟨us, rfl, hrun⟩ := hs.lookahead
      obtain ⟨vs, rfl, hf⟩ := ih
      refine ⟨keyword :: (cs ++ (us ++ other :: vs)), by simp, fun stop' hr => ?_⟩
      have hcondition := hrunc (us ++ other :: (vs ++ stop')) (head?_append_congr (by simp) us)
      have hthen := hrun eof (other :: (vs ++ stop')) rfl fun _ => rfl
      simpa using FirstFault.elseBranch hk hcondition hthen hn ho (hf stop' hr)

/-- Wherever there is a first fatal fault, one is reported. -/
theorem FirstFault.fatal {r : StmtRule} {ts stop rest : List Token} {missing : Expected}
    {ss : List Stmt} {reports : List ParseError} (h : FirstFault eof r ts stop missing)
    (h' : ReadsStmts eof r ts (.ok ss) rest reports) : ∃ e ∈ reports, e.isFatal := by
  induction h generalizing ss rest reports with
  | rejected h _ => cases (h.unique h').1
  | first hs h ih =>
      cases h' with
      | nothing hn => simp [hs] at hn
      | kept _ hd _ =>
          obtain ⟨e, he, hfatal⟩ := ih hd
          exact ⟨e, List.mem_append_left _ he, hfatal⟩
      | dropped _ _ _ =>
          have hblamed (reports : List ParseError) (e : ParseError) : e ∈ reports ++ [e] :=
            List.mem_append_right _ (List.mem_singleton_self e)
          exact ⟨_, List.mem_append_left _ (hblamed _ _), rfl⟩
  | later hs hd _ _ ih =>
      cases h' with
      | nothing hn => simp [hs] at hn
      | kept _ hd' hs' =>
          obtain ⟨⟨⟩, rfl, rfl⟩ := hd.unique hd'
          obtain ⟨e, he, hfatal⟩ := ih hs'
          exact ⟨e, List.mem_append_right _ he, hfatal⟩
      | dropped _ hd' _ => cases (hd.unique hd').1
  | statement hv _ ih =>
      cases h' with
      | statement _ h' => exact ih h'
      | declare hk _ _ | declareValue hk _ _ _ => simp [hk] at hv
  | block ho _ ih =>
      cases h' with
      | block _ h' _ => exact ih h'
      | expression hn _ => simp [ho, opensStatement] at hn
      | print hk _ | ifThen hk _ _ _ | ifElse hk _ _ _ _ => simp [ho] at hk
  | thenBranch hk hc _ ih =>
      cases h' with
      | ifThen _ hc' h' _ | ifElse _ hc' h' _ _ =>
          obtain ⟨⟨⟩, rfl, rfl⟩ := hc.unique hc'
          obtain ⟨e, he, hfatal⟩ := ih h'
          exact ⟨e, by simp [he], hfatal⟩
      | expression hn _ => simp [hk, opensStatement] at hn
      | print hk' _ => simp [hk] at hk'
      | block ho _ _ => simp [hk] at ho
  | elseBranch hk hc hs _ ho _ ih =>
      cases h' with
      | ifThen _ hc' hs' hn' =>
          obtain ⟨⟨⟩, rfl, rfl⟩ := hc.unique hc'
          obtain ⟨-, rfl, -⟩ := hs.unique hs'
          simp [ho] at hn'
      | ifElse _ hc' hs' _ h' =>
          obtain ⟨⟨⟩, rfl, rfl⟩ := hc.unique hc'
          obtain ⟨⟨⟩, ⟨⟩, rfl⟩ := hs.unique hs'
          obtain ⟨e, he, hfatal⟩ := ih h'
          exact ⟨e, by simp [he], hfatal⟩
      | expression hn _ => simp [hk, opensStatement] at hn
      | print hk' _ => simp [hk] at hk'
      | block ho' _ _ => simp [hk] at ho'

end Parse

namespace Grammar

/-- The tokens are the front of a program. -/
def StartsProgram (ts : List Token) : Prop := ∃ us, HasDraft (ts ++ us)

theorem startsProgram_iff {ts : List Token} :
    StartsProgram ts ↔ Parse.Completable .declarations ts := by
  constructor
  · rintro ⟨us, h⟩
    obtain ⟨ss, bad, hd⟩ := hasDraft_iff_isProgram.mp h
    exact ⟨us, ss, bad, hd⟩
  · rintro ⟨us, ss, bad, hd⟩
    exact ⟨us, hasDraft_iff_isProgram.mpr ⟨ss, bad, hd⟩⟩

end Grammar

namespace Program

open Parse Grammar

/-- A program has no fatal fault, and what has none is a program. -/
theorem nonfatal_iff_hasDraft {ts : List Token} {eof : Token} (hts : ∀ t ∈ ts, t.kind ≠ .eof)
    (heof : eof.kind = .eof) :
    (∀ e ∈ (ofTokens (ts ++ [eof])).errors, e.isFatal = false) ↔ HasDraft ts := by
  constructor
  · intro hn
    have hread := reads_ofTokens (ts ++ [eof])
    rw [body_concat hts heof] at hread
    obtain ⟨bad, hd, -⟩ := reads_nonfatal_iff.mp ⟨hread, hn⟩
    exact hasDraft_iff_isProgram.mpr ⟨_, bad, hd⟩
  · intro h
    obtain ⟨ss, bad, hd⟩ := hasDraft_iff_isProgram.mp h
    rw [ofTokens_of_statements hd heof]
    simp [invalidTarget, ParseError.isFatal]

/-- Tokens that have a first fatal fault are the front of a program up to the blamed token, and not
together with it. -/
theorem startsProgram_of_firstFault {eof : Token} {us stop : List Token} {missing : Expected}
    (h : FirstFault eof (.declarations false) (us ++ stop) stop missing) :
    StartsProgram us ∧ ∀ blamed rest, stop = blamed :: rest → ¬ StartsProgram (us ++ [blamed]) := by
  obtain ⟨us', hus, hcompletable⟩ := h.completable
  obtain rfl := List.append_cancel_right hus
  refine ⟨startsProgram_iff.mpr hcompletable, ?_⟩
  rintro blamed rest rfl hstarts
  obtain ⟨us', hus, hfault⟩ := h.lookahead
  obtain rfl := List.append_cancel_right hus
  obtain ⟨vs, ss, bad, hd⟩ := startsProgram_iff.mp hstarts
  rw [List.append_assoc] at hd
  -- whatever follows the blamed token, the same demand is not met in front of it
  obtain ⟨hread, hnonfatal⟩ := reads_nonfatal_iff.mpr ⟨bad, hd, rfl⟩
  obtain ⟨e, he, hfatal⟩ := (hfault ([blamed] ++ vs) rfl).fatal hread
  simp [hnonfatal e he] at hfatal

/-- **The first fatal fault.** Tokens before an end token have only faults about the targets of
assignments if and only if they are a program. Otherwise the first of the other faults is blamed on
the first token up to which they are not the front of a program, or on the end if there is no such
token. -/
theorem firstFatal_located {ts : List Token} {eof : Token} (hts : ∀ t ∈ ts, t.kind ≠ .eof)
    (heof : eof.kind = .eof) :
    ((∀ e ∈ (ofTokens (ts ++ [eof])).errors, e.message = "Invalid assignment target.") ↔
      HasDraft ts) ∧
    (¬ HasDraft ts → ∃ e p,
      (ofTokens (ts ++ [eof])).errors.find? (·.message ≠ "Invalid assignment target.") = some e ∧
      (ts ++ [eof])[p]? = some e.token ∧ StartsProgram (ts.take p) ∧
      (p < ts.length → ¬ StartsProgram (ts.take (p + 1)))) := by
  have hmessage : ∀ e : ParseError,
      decide (e.message ≠ "Invalid assignment target.") = e.isFatal := by
    intro e
    simp only [← e.isFatal_iff_message_ne, Bool.decide_eq_true]
  have hiff : (∀ e ∈ (ofTokens (ts ++ [eof])).errors, e.message = "Invalid assignment target.") ↔
      HasDraft ts := by
    rw [← nonfatal_iff_hasDraft hts heof]
    simp [← hmessage]
  refine ⟨hiff, fun hno => ?_⟩
  simp only [hmessage]
  cases hfind : (ofTokens (ts ++ [eof])).errors.find? (·.isFatal) with
  | none =>
      rw [← nonfatal_iff_hasDraft hts heof] at hno
      exact absurd (by simpa using hfind) hno
  | some e =>
      have hread := reads_ofTokens (ts ++ [eof])
      rw [body_concat hts heof, ending_concat hts heof] at hread
      obtain ⟨stop, missing, hfault, rfl⟩ := hread.firstFault hfind
      obtain ⟨us, rfl, -⟩ := hfault.completable
      obtain ⟨hstarts, hends⟩ := startsProgram_of_firstFault hfault
      refine ⟨_, us.length, rfl, ?_, by simpa using hstarts, ?_⟩
      · cases stop <;> simp
      · intro hp
        cases stop with
        | nil => simp at hp
        | cons blamed rest =>
            have hblamed := hends blamed rest rfl
            rwa [List.take_append, List.take_of_length_le (Nat.le_succ _), Nat.add_sub_cancel_left,
              List.take_one, List.head?_cons, Option.toList_some]

/-- The tokens of `nil = a; { if (b) print c d; }`. -/
def brokenBranch : List Token :=
  [word .kwNil "nil", word .equal "=", word .identifier "a", word .semicolon ";",
   word .leftBrace "\x7b", word .kwIf "if", word .leftParen "(", word .identifier "b",
   word .rightParen ")", word .kwPrint "print", word .identifier "c", word .identifier "d",
   word .semicolon ";", word .rightBrace "\x7d"]

/-- The tokens up to `print c` are the front of a program, and together with `d` they are not. -/
theorem firstFatal_brokenBranch :
    (∀ t ∈ brokenBranch, t.kind ≠ .eof) ∧ (Token.endOn 1).kind = .eof ∧
    ¬ HasDraft brokenBranch ∧
    (ofTokens (brokenBranch ++ [Token.endOn 1])).errors =
      [⟨word .equal "=", .invalidTarget⟩,
       ⟨word .identifier "d", .missing .semicolonAfterValue⟩] ∧
    StartsProgram (brokenBranch.take 11) ∧ ¬ StartsProgram (brokenBranch.take 12) := by
  have hts : ∀ t ∈ brokenBranch, t.kind ≠ .eof := by decide
  have heof : (Token.endOn 1).kind = .eof := rfl
  have herrors : (ofTokens (brokenBranch ++ [Token.endOn 1])).errors =
      [⟨word .equal "=", .invalidTarget⟩,
       ⟨word .identifier "d", .missing .semicolonAfterValue⟩] := by decide +kernel
  obtain ⟨hiff, hlocated⟩ := firstFatal_located hts heof
  have hno : ¬ HasDraft brokenBranch := by
    rw [← hiff, herrors]
    decide
  obtain ⟨e, p, hfind, hp, hstarts, hends⟩ := hlocated hno
  rw [herrors] at hfind
  obtain rfl : e = ⟨word .identifier "d", .missing .semicolonAfterValue⟩ :=
    (Option.some.inj hfind).symm
  -- there is one token `d`
  have hposition : ∀ q < 15, (brokenBranch ++ [Token.endOn 1])[q]? =
      some (word .identifier "d") → q = 11 := by decide
  obtain rfl := hposition p (List.getElem?_eq_some_iff.mp hp).1 hp
  exact ⟨hts, heof, hno, herrors, hstarts, hends (by decide)⟩

end Program

end Lox
