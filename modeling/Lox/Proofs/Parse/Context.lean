import Lox.Proofs.Parse.Completeness

set_option autoImplicit false

/-! # Runs in front of further tokens

A run looks one token ahead: it depends on the tokens that it takes and on the next one
(`ReadsExpr.lookahead`, `ReadsStmts.lookahead`). This holds of rejecting runs and of resuming behind
a fault as well. So a run that leaves tokens over is not changed by tokens put behind them
(`ReadsStmts.append`).

The tokens that a rule for expressions takes are of few kinds (`ReadsExpr.takes`), so that a run
cannot go past a semicolon unless it ends with it.
-/

namespace Lox

namespace Parse

/-! ## Expressions -/

/-- What is next depends on the first token only. -/
theorem nextIs_congr {p : Token.Kind → Bool} {ts us : List Token} (h : ts.head? = us.head?) :
    nextIs p ts = nextIs p us := by
  cases ts with
  | nil =>
      cases us with
      | nil => rfl
      | cons u us => cases h
  | cons t ts =>
      cases us with
      | nil => cases h
      | cons u us => rw [nextIs_cons, nextIs_cons, Option.some.inj h]

theorem head?_append_congr {ts us : List Token} (h : ts.head? = us.head?) (vs : List Token) :
    (vs ++ ts).head? = (vs ++ us).head? := by
  cases vs with
  | nil => exact h
  | cons v vs => rfl

/-- A run looks one token ahead: the tokens behind those that it takes may be replaced by others
that start with the same token. -/
theorem ReadsExpr.lookahead {r : ExprRule} {ts rest : List Token} {o : Except Expected Expr}
    {reports : List ParseError} (h : ReadsExpr r ts o rest reports) :
    ∃ us, ts = us ++ rest ∧ ∀ rest' : List Token, rest'.head? = rest.head? →
      ReadsExpr r (us ++ rest') o rest' reports := by
  induction h with
  | expression _ _ iht ih =>
      obtain ⟨us, rfl, hrun⟩ := iht
      obtain ⟨vs, rfl, hrun'⟩ := ih
      refine ⟨us ++ vs, by simp, fun rest' hr => ?_⟩
      rw [List.append_assoc]
      exact .expression (hrun _ (head?_append_congr hr vs)) (hrun' _ hr)
  | expressionFails _ ih =>
      obtain ⟨us, rfl, hrun⟩ := ih
      exact ⟨us, rfl, fun rest' hr => .expressionFails (hrun _ hr)⟩
  | noEquals hn => exact ⟨[], rfl, fun rest' hr => .noEquals ((nextIs_congr hr).trans hn)⟩
  | @assign _ _ _ equals _ _ he _ ih =>
      obtain ⟨us, rfl, hrun⟩ := ih
      exact ⟨equals :: us, rfl, fun rest' hr => .assign he (hrun _ hr)⟩
  | @misassign _ _ _ equals _ _ he hn _ ih =>
      obtain ⟨us, rfl, hrun⟩ := ih
      exact ⟨equals :: us, rfl, fun rest' hr => .misassign he hn (hrun _ hr)⟩
  | @valueFails _ _ _ equals _ _ he _ ih =>
      obtain ⟨us, rfl, hrun⟩ := ih
      exact ⟨equals :: us, rfl, fun rest' hr => .valueFails he (hrun _ hr)⟩
  | level _ _ ihl ih =>
      obtain ⟨us, rfl, hrun⟩ := ihl
      obtain ⟨vs, rfl, hrun'⟩ := ih
      refine ⟨us ++ vs, by simp, fun rest' hr => ?_⟩
      rw [List.append_assoc]
      exact .level (hrun _ (head?_append_congr hr vs)) (hrun' _ hr)
  | levelFails _ ih =>
      obtain ⟨us, rfl, hrun⟩ := ih
      exact ⟨us, rfl, fun rest' hr => .levelFails (hrun _ hr)⟩
  | tighter hm _ ih =>
      obtain ⟨us, rfl, hrun⟩ := ih
      exact ⟨us, rfl, fun rest' hr => .tighter hm (hrun _ hr)⟩
  | tightest hm _ ih =>
      obtain ⟨us, rfl, hrun⟩ := ih
      exact ⟨us, rfl, fun rest' hr => .tightest hm (hrun _ hr)⟩
  | chainEnd hn => exact ⟨[], rfl, fun rest' hr => .chainEnd ((nextIs_congr hr).trans hn)⟩
  | @chain _ _ _ operator _ _ _ _ _ _ ho _ _ ihr ih =>
      obtain ⟨us, rfl, hrun⟩ := ihr
      obtain ⟨vs, rfl, hrun'⟩ := ih
      refine ⟨operator :: (us ++ vs), by simp, fun rest' hr => ?_⟩
      rw [List.cons_append, List.append_assoc]
      exact .chain ho (hrun _ (head?_append_congr hr vs)) (hrun' _ hr)
  | @chainFails _ _ operator _ _ _ _ ho _ ih =>
      obtain ⟨us, rfl, hrun⟩ := ih
      exact ⟨operator :: us, rfl, fun rest' hr => .chainFails ho (hrun _ hr)⟩
  | @unary operator _ _ _ _ ho _ ih =>
      obtain ⟨us, rfl, hrun⟩ := ih
      exact ⟨operator :: us, rfl, fun rest' hr => .unary ho (hrun _ hr)⟩
  | @unaryFails operator _ _ _ _ ho _ ih =>
      obtain ⟨us, rfl, hrun⟩ := ih
      exact ⟨operator :: us, rfl, fun rest' hr => .unaryFails ho (hrun _ hr)⟩
  | primary hn _ ih =>
      obtain ⟨us, rfl, hrun⟩ := ih
      exact ⟨us, rfl, fun rest' hr =>
        .primary ((nextIs_congr (head?_append_congr hr us)).trans hn) (hrun _ hr)⟩
  | @atom t _ _ ha => exact ⟨[t], rfl, fun rest' _ => .atom ha⟩
  | @grouping opening closing _ _ _ _ ho _ hc ih =>
      obtain ⟨us, rfl, hrun⟩ := ih
      refine ⟨opening :: (us ++ [closing]), by simp, fun rest' _ => ?_⟩
      simpa using ReadsExpr.grouping ho (hrun (closing :: rest') rfl) hc
  | @groupingFails opening _ _ _ _ ho _ ih =>
      obtain ⟨us, rfl, hrun⟩ := ih
      exact ⟨opening :: us, rfl, fun rest' hr => .groupingFails ho (hrun _ hr)⟩
  | @groupingOpen opening _ _ _ _ ho _ hn ih =>
      obtain ⟨us, rfl, hrun⟩ := ih
      exact ⟨opening :: us, rfl, fun rest' hr =>
        .groupingOpen ho (hrun _ hr) ((nextIs_congr hr).trans hn)⟩
  | noExpression hn => exact ⟨[], rfl, fun rest' hr => .noExpression (by rwa [List.nil_append, hr])⟩
  | @terminated _ semicolon _ _ _ _ _ hs ih =>
      obtain ⟨us, rfl, hrun⟩ := ih
      refine ⟨us ++ [semicolon], by simp, fun rest' _ => ?_⟩
      rw [List.append_assoc]
      exact .terminated (hrun (semicolon :: rest') rfl) hs
  | terminatedFails _ ih =>
      obtain ⟨us, rfl, hrun⟩ := ih
      exact ⟨us, rfl, fun rest' hr => .terminatedFails (hrun _ hr)⟩
  | noSemicolon _ hn ih =>
      obtain ⟨us, rfl, hrun⟩ := ih
      exact ⟨us, rfl, fun rest' hr => .noSemicolon (hrun _ hr) ((nextIs_congr hr).trans hn)⟩
  | @condition opening closing _ _ _ _ ho _ hc ih =>
      obtain ⟨us, rfl, hrun⟩ := ih
      refine ⟨opening :: (us ++ [closing]), by simp, fun rest' _ => ?_⟩
      simpa using ReadsExpr.condition ho (hrun (closing :: rest') rfl) hc
  | noCondition hn => exact ⟨[], rfl, fun rest' hr => .noCondition ((nextIs_congr hr).trans hn)⟩
  | @conditionFails opening _ _ _ _ ho _ ih =>
      obtain ⟨us, rfl, hrun⟩ := ih
      exact ⟨opening :: us, rfl, fun rest' hr => .conditionFails ho (hrun _ hr)⟩
  | @conditionOpen opening _ _ _ _ ho _ hn ih =>
      obtain ⟨us, rfl, hrun⟩ := ih
      exact ⟨opening :: us, rfl, fun rest' hr =>
        .conditionOpen ho (hrun _ hr) ((nextIs_congr hr).trans hn)⟩

/-- Whether a token of the kind can stand in an expression. -/
def occursInExpr (k : Token.Kind) : Bool := startsExpr k || continuesExpr k || k = .rightParen

/-- Whether the rule takes tokens of the kind. A semicolon is taken at the end only. -/
def ExprRule.takes : ExprRule → Token.Kind → Bool
  | terminated _, k => occursInExpr k || k = .semicolon
  | _, k => occursInExpr k

theorem occursInExpr_of_joins {l : Level} {k : Token.Kind} (h : l.joins k) : occursInExpr k := by
  have hc : continuesExpr k := by
    rw [continuesExpr, Bool.or_assoc, Level.isBinary_or_isLogical h, Bool.or_true]
  simp [occursInExpr, hc]

theorem occursInExpr_of_isUnary {k : Token.Kind} (h : k.isUnary) : occursInExpr k := by
  rcases Grammar.isUnary_iff.mp h with rfl | rfl <;> rfl

theorem occursInExpr_of_atom {t : Token} {e : Expr} (h : t.atom? = some e) :
    occursInExpr t.kind := by
  simp [occursInExpr, (Grammar.atom_iff.mpr h).startsExpr]

/-- The tokens taken by a run are of the kinds that its rule takes. -/
theorem ReadsExpr.takes {r : ExprRule} {ts rest : List Token} {o : Except Expected Expr}
    {reports : List ParseError} (h : ReadsExpr r ts o rest reports) :
    ∃ us, ts = us ++ rest ∧ ∀ t ∈ us, r.takes t.kind := by
  induction h with
  | expression _ _ iht ih | level _ _ iht ih =>
      obtain ⟨us, rfl, hus⟩ := iht
      obtain ⟨vs, rfl, hvs⟩ := ih
      exact ⟨us ++ vs, by simp, List.forall_mem_append.mpr ⟨hus, hvs⟩⟩
  | @chain _ _ _ operator _ _ _ _ _ _ ho _ _ ihr ih =>
      obtain ⟨us, rfl, hus⟩ := ihr
      obtain ⟨vs, rfl, hvs⟩ := ih
      exact ⟨operator :: (us ++ vs), by simp,
        List.forall_mem_cons.mpr ⟨occursInExpr_of_joins ho, List.forall_mem_append.mpr ⟨hus, hvs⟩⟩⟩
  | noEquals | chainEnd | noExpression | noCondition => exact ⟨[], rfl, by simp⟩
  | expressionFails _ ih | levelFails _ ih | tighter _ _ ih | tightest _ _ ih | primary _ _ ih =>
      exact ih
  | terminatedFails _ ih | noSemicolon _ _ ih =>
      obtain ⟨us, rfl, hus⟩ := ih
      exact ⟨us, rfl, fun t ht => by simpa [ExprRule.takes] using .inl (hus t ht)⟩
  | @assign _ _ _ equals _ _ he _ ih | @misassign _ _ _ equals _ _ he _ _ ih
  | @valueFails _ _ _ equals _ _ he _ ih =>
      obtain ⟨us, rfl, hus⟩ := ih
      exact ⟨equals :: us, rfl, List.forall_mem_cons.mpr ⟨by rw [he]; rfl, hus⟩⟩
  | @chainFails _ _ operator _ _ _ _ ho _ ih =>
      obtain ⟨us, rfl, hus⟩ := ih
      exact ⟨operator :: us, rfl, List.forall_mem_cons.mpr ⟨occursInExpr_of_joins ho, hus⟩⟩
  | @unary operator _ _ _ _ ho _ ih | @unaryFails operator _ _ _ _ ho _ ih =>
      obtain ⟨us, rfl, hus⟩ := ih
      exact ⟨operator :: us, rfl, List.forall_mem_cons.mpr ⟨occursInExpr_of_isUnary ho, hus⟩⟩
  | @atom t _ _ ha => exact ⟨[t], rfl, List.forall_mem_singleton.mpr (occursInExpr_of_atom ha)⟩
  | @grouping opening closing _ _ _ _ ho _ hc ih | @condition opening closing _ _ _ _ ho _ hc ih =>
      obtain ⟨us, rfl, hus⟩ := ih
      refine ⟨opening :: (us ++ [closing]), by simp, List.forall_mem_cons.mpr ⟨by rw [ho]; rfl,
        List.forall_mem_append.mpr ⟨hus, ?_⟩⟩⟩
      rw [List.forall_mem_singleton, hc]
      rfl
  | @groupingFails opening _ _ _ _ ho _ ih | @groupingOpen opening _ _ _ _ ho _ _ ih
  | @conditionFails opening _ _ _ _ ho _ ih | @conditionOpen opening _ _ _ _ ho _ _ ih =>
      obtain ⟨us, rfl, hus⟩ := ih
      exact ⟨opening :: us, rfl, List.forall_mem_cons.mpr ⟨by rw [ho]; rfl, hus⟩⟩
  | @terminated _ semicolon _ _ _ _ _ hs ih =>
      obtain ⟨us, rfl, hus⟩ := ih
      refine ⟨us ++ [semicolon], by simp, List.forall_mem_append.mpr
        ⟨fun t ht => by simpa [ExprRule.takes] using .inl (hus t ht), ?_⟩⟩
      simp [ExprRule.takes, hs]

/-- The tokens of an expression are of the kinds that can stand in one. -/
theorem occursInExpr_of_mem {ts : List Token} {e : Expr} {bad : List Token}
    (h : Grammar.Expression .expression ts e bad) : ∀ t ∈ ts, occursInExpr t.kind := by
  obtain ⟨us, hus, htakes⟩ := (reads_of_expression h [] rfl).takes
  rw [List.append_cancel_right hus]
  exact htakes

/-- The reports of a run are about assignments. -/
theorem ReadsExpr.nonfatal {r : ExprRule} {ts rest : List Token} {o : Except Expected Expr}
    {reports : List ParseError} (h : ReadsExpr r ts o rest reports) :
    ∀ e ∈ reports, e.isFatal = false := by
  induction h with
  | noEquals | chainEnd | noExpression | noCondition | atom => simp
  | expression _ _ iht ih | level _ _ iht ih | chain _ _ _ iht ih =>
      exact List.forall_mem_append.mpr ⟨iht, ih⟩
  | misassign _ _ _ ih =>
      refine List.forall_mem_append.mpr ⟨ih, ?_⟩
      rw [List.forall_mem_singleton]
      rfl
  | _ => assumption

/-! ## Statements -/

variable {eof : Token}

/-- Resuming behind a fault looks one token ahead as well. -/
theorem resume_lookahead {us rest rest' : List Token} (h : resume (us ++ rest) = rest)
    (hr : rest'.head? = rest.head?) : resume (us ++ rest') = rest' := by
  induction us with
  | nil =>
      have hle := length_resume_le rest
      rw [List.nil_append] at h
      rw [h] at hle
      obtain rfl : rest = [] := List.length_eq_zero_iff.mp (by omega)
      rw [List.head?_nil, List.head?_eq_none_iff] at hr
      rw [hr]
      rfl
  | cons u us ih =>
      rw [List.cons_append, resume] at h ⊢
      rw [head?_append_congr hr us]
      split
      · next hstop =>
        -- resuming stops behind the first token, so this is all that is passed over
        rw [if_pos hstop] at h
        obtain rfl : us = [] := by simpa using h
        rfl
      · next hstop =>
        rw [if_neg hstop] at h
        exact ih h

theorem stops_congr {inBlock : Bool} {ts us : List Token} (h : ts.head? = us.head?) :
    stops inBlock ts = stops inBlock us := by
  cases ts with
  | nil =>
      cases us with
      | nil => rfl
      | cons u us => cases h
  | cons t ts =>
      cases us with
      | nil => cases h
      | cons u us => rw [stops_cons, stops_cons, Option.some.inj h]

theorem headD_congr {ts us : List Token} {eof eof' : Token} (h : ts.head? = us.head?)
    (he : us = [] → eof' = eof) : ts.headD eof' = us.headD eof := by
  cases us with
  | nil =>
      rw [List.head?_nil, List.head?_eq_none_iff] at h
      rw [h, he rfl]
  | cons u us =>
      cases ts with
      | nil => cases h
      | cons t ts => exact Option.some.inj h

/-- A run looks one token ahead. The end is blamed only if no tokens are left over. -/
theorem ReadsStmts.lookahead {r : StmtRule} {ts rest : List Token}
    {o : Except Expected (List Stmt)} {reports : List ParseError}
    (h : ReadsStmts eof r ts o rest reports) :
    ∃ us, ts = us ++ rest ∧ ∀ (eof' : Token) (rest' : List Token), rest'.head? = rest.head? →
      (rest = [] → eof' = eof) → ReadsStmts eof' r (us ++ rest') o rest' reports := by
  induction h with
  | nothing hn => exact ⟨[], rfl, fun eof' rest' hr _ => .nothing ((stops_congr hr).trans hn)⟩
  | kept hn _ _ ih ihs =>
      obtain ⟨us, rfl, hrun⟩ := ih
      obtain ⟨vs, rfl, hruns⟩ := ihs
      refine ⟨us ++ vs, by simp, fun eof' rest' hr he => ?_⟩
      have hr' := head?_append_congr hr vs
      rw [List.append_assoc]
      exact .kept ((stops_congr (head?_append_congr hr' us)).trans hn)
        (hrun eof' _ hr' fun h => he (List.append_eq_nil_iff.mp h).2) (hruns eof' _ hr he)
  | @dropped inBlock _ rest rest'' missing _ _ _ hn _ _ ih ihs =>
      obtain ⟨us, rfl, hrun⟩ := ih
      obtain ⟨ws, hws⟩ := resume_suffix rest
      obtain ⟨vs, hvs, hruns⟩ := ihs
      refine ⟨us ++ (ws ++ vs), by rw [← hws, hvs]; simp, fun eof' rest' hr he => ?_⟩
      have hr' : (vs ++ rest').head? = (resume rest).head? := by
        rw [hvs]
        exact head?_append_congr hr vs
      have hblamed : (ws ++ (vs ++ rest')).head? = rest.head? := by
        rw [← hws]
        exact head?_append_congr hr' ws
      have hend : rest = [] → eof' = eof := by
        intro hrest
        refine he (List.append_eq_nil_iff.mp (?_ : vs ++ rest'' = [])).2
        rw [← hvs, hrest]
        rfl
      have hresume : resume (ws ++ (vs ++ rest')) = vs ++ rest' :=
        resume_lookahead (by rw [hws]) hr'
      rw [← headD_congr hblamed hend, List.append_assoc, List.append_assoc]
      exact .dropped ((stops_congr (head?_append_congr hblamed us)).trans hn)
        (hrun eof' _ hblamed hend) (by rw [hresume]; exact hruns eof' _ hr he)
  | @declare keyword name semicolon _ hk hn hs =>
      exact ⟨[keyword, name, semicolon], rfl, fun eof' rest' _ _ => .declare hk hn hs⟩
  | @declareValue keyword name equals _ _ _ _ hk hn he h =>
      obtain ⟨us, rfl, hrun⟩ := h.lookahead
      exact ⟨keyword :: name :: equals :: us, rfl, fun eof' rest' hr _ =>
        .declareValue hk hn he (hrun _ hr)⟩
  | @noName keyword _ hk hn =>
      exact ⟨[keyword], rfl, fun eof' rest' hr _ => .noName hk ((nextIs_congr hr).trans hn)⟩
  | @noValue keyword name _ hk hn he hs =>
      exact ⟨[keyword, name], rfl, fun eof' rest' hr _ =>
        .noValue hk hn ((nextIs_congr hr).trans he) ((nextIs_congr hr).trans hs)⟩
  | @valueFails keyword name equals _ _ _ _ hk hn he h =>
      obtain ⟨us, rfl, hrun⟩ := h.lookahead
      exact ⟨keyword :: name :: equals :: us, rfl, fun eof' rest' hr _ =>
        .valueFails hk hn he (hrun _ hr)⟩
  | statement hn _ ih =>
      obtain ⟨us, rfl, hrun⟩ := ih
      exact ⟨us, rfl, fun eof' rest' hr he =>
        .statement ((nextIs_congr (head?_append_congr hr us)).trans hn) (hrun eof' _ hr he)⟩
  | expression hn h =>
      obtain ⟨us, rfl, hrun⟩ := h.lookahead
      exact ⟨us, rfl, fun eof' rest' hr _ =>
        .expression ((nextIs_congr (head?_append_congr hr us)).trans hn) (hrun _ hr)⟩
  | expressionFails hn h =>
      obtain ⟨us, rfl, hrun⟩ := h.lookahead
      exact ⟨us, rfl, fun eof' rest' hr _ =>
        .expressionFails ((nextIs_congr (head?_append_congr hr us)).trans hn) (hrun _ hr)⟩
  | @print keyword _ _ _ _ hk h =>
      obtain ⟨us, rfl, hrun⟩ := h.lookahead
      exact ⟨keyword :: us, rfl, fun eof' rest' hr _ => .print hk (hrun _ hr)⟩
  | @printFails keyword _ _ _ _ hk h =>
      obtain ⟨us, rfl, hrun⟩ := h.lookahead
      exact ⟨keyword :: us, rfl, fun eof' rest' hr _ => .printFails hk (hrun _ hr)⟩
  | @block opening closing _ _ _ _ ho _ hc ih =>
      obtain ⟨us, rfl, hrun⟩ := ih
      refine ⟨opening :: (us ++ [closing]), by simp, fun eof' rest' _ _ => ?_⟩
      simpa using ReadsStmts.block ho (hrun eof' (closing :: rest') rfl (by simp)) hc
  | @blockOpen opening _ _ _ ho _ ih =>
      obtain ⟨us, rfl, hrun⟩ := ih
      refine ⟨opening :: us, rfl, fun eof' rest' hr he => ?_⟩
      obtain rfl : rest' = [] := List.head?_eq_none_iff.mp hr
      exact .blockOpen ho (hrun eof' [] hr he)
  | @conditionFails keyword _ _ _ _ hk h =>
      obtain ⟨us, rfl, hrun⟩ := h.lookahead
      exact ⟨keyword :: us, rfl, fun eof' rest' hr _ => .conditionFails hk (hrun _ hr)⟩
  | @thenFails keyword _ _ _ _ _ _ _ hk hc _ ih =>
      obtain ⟨cs, rfl, hrunc⟩ := hc.lookahead
      obtain ⟨us, rfl, hrun⟩ := ih
      refine ⟨keyword :: (cs ++ us), by simp, fun eof' rest' hr he => ?_⟩
      rw [List.cons_append, List.append_assoc]
      exact .thenFails hk (hrunc _ (head?_append_congr hr us)) (hrun eof' _ hr he)
  | @ifThen keyword _ _ _ _ _ _ _ hk hc _ hn ih =>
      obtain ⟨cs, rfl, hrunc⟩ := hc.lookahead
      obtain ⟨us, rfl, hrun⟩ := ih
      refine ⟨keyword :: (cs ++ us), by simp, fun eof' rest' hr he => ?_⟩
      rw [List.cons_append, List.append_assoc]
      exact .ifThen hk (hrunc _ (head?_append_congr hr us)) (hrun eof' _ hr he)
        ((nextIs_congr hr).trans hn)
  | @elseFails keyword other _ _ _ _ _ _ _ _ _ _ hk hc _ ho _ ih ihe =>
      obtain ⟨cs, rfl, hrunc⟩ := hc.lookahead
      obtain ⟨us, rfl, hrun⟩ := ih
      obtain ⟨vs, rfl, hrune⟩ := ihe
      refine ⟨keyword :: (cs ++ (us ++ other :: vs)), by simp, fun eof' rest' hr he => ?_⟩
      have hcondition := hrunc (us ++ other :: (vs ++ rest')) (head?_append_congr (by simp) us)
      have hthen := hrun eof' (other :: (vs ++ rest')) rfl (by simp)
      have helse := hrune eof' rest' hr he
      simpa using ReadsStmts.elseFails hk hcondition hthen ho helse
  | @ifElse keyword other _ _ _ _ _ _ _ _ _ _ hk hc _ ho _ ih ihe =>
      obtain ⟨cs, rfl, hrunc⟩ := hc.lookahead
      obtain ⟨us, rfl, hrun⟩ := ih
      obtain ⟨vs, rfl, hrune⟩ := ihe
      refine ⟨keyword :: (cs ++ (us ++ other :: vs)), by simp, fun eof' rest' hr he => ?_⟩
      have hcondition := hrunc (us ++ other :: (vs ++ rest')) (head?_append_congr (by simp) us)
      have hthen := hrun eof' (other :: (vs ++ rest')) rfl (by simp)
      have helse := hrune eof' rest' hr he
      simpa using ReadsStmts.ifElse hk hcondition hthen ho helse

/-- A run that leaves tokens over is not changed by tokens behind those. -/
theorem ReadsStmts.append {r : StmtRule} {ts rest : List Token} {o : Except Expected (List Stmt)}
    {reports : List ParseError} (h : ReadsStmts eof r ts o rest reports) (hrest : rest ≠ [])
    (eof' : Token) (us : List Token) : ReadsStmts eof' r (ts ++ us) o (rest ++ us) reports := by
  obtain ⟨vs, rfl, hrun⟩ := h.lookahead
  rw [List.append_assoc]
  exact hrun eof' _ (List.head?_append_of_ne_nil _ hrest) fun h => absurd h hrest

end Parse

end Lox
