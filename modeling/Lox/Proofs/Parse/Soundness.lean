import Lox.Proofs.Parse.Statement

set_option autoImplicit false

/-! # What is read is derivable

An accepted expression is derived, by the rule that read it, from exactly the tokens that were
taken, and the assignments that were reported are those of the derivation (`ReadsExpr.derives`).
For statements this holds as long as no declaration is dropped; if some are, the derivation is
one of the tokens without them (`ReadsStmts.derives`).
-/

namespace Lox

namespace Grammar

/-! ## Words of the grammar -/

theorem ofLiteral_eq_iff {l : Token.Literal} {v : Value} :
    Value.ofLiteral l = v ↔ LiteralValue l v := by
  constructor
  · rintro rfl
    cases l with
    | number => exact .number
    | string => exact .string
  · intro h
    cases h <;> rfl

theorem atom_iff {t : Token} {e : Expr} : Atom t e ↔ t.atom? = some e := by
  constructor
  · intro h
    cases h with
    | «false» h | «true» h | nil h | name h => simp [Token.atom?, h]
    | number h hl hv | string h hl hv => simp [Token.atom?, h, hl, ofLiteral_eq_iff.mpr hv]
  · intro h
    unfold Token.atom? at h
    split at h
    · next hk => cases h; exact .false hk
    · next hk => cases h; exact .true hk
    · next hk => cases h; exact .nil hk
    · next hk =>
      obtain ⟨l, hl, rfl⟩ := Option.map_eq_some_iff.mp h
      exact .number hk hl (ofLiteral_eq_iff.mp rfl)
    · next hk =>
      obtain ⟨l, hl, rfl⟩ := Option.map_eq_some_iff.mp h
      exact .string hk hl (ofLiteral_eq_iff.mp rfl)
    · next hk => cases h; exact .name hk
    · cases h

theorem isUnary_iff {k : Token.Kind} : k.isUnary ↔ k = .bang ∨ k = .minus := by
  cases k <;> simp [Token.Kind.isUnary]

theorem joins_iff {l : Level} {k : Token.Kind} : Joins l k ↔ l.joins k := by
  constructor
  · intro h
    cases h <;> rfl
  · intro h
    cases l <;> simp only [Level.joins, Bool.or_eq_true, decide_eq_true_eq] at h
    case disjunction => exact h ▸ .or
    case conjunction => exact h ▸ .and
    case equality =>
      rcases h with rfl | rfl
      · exact .unequal
      · exact .equal
    case comparison =>
      rcases h with ((rfl | rfl) | rfl) | rfl
      · exact .greater
      · exact .greaterEqual
      · exact .less
      · exact .lessEqual
    case term =>
      rcases h with rfl | rfl
      · exact .minus
      · exact .plus
    case factor =>
      rcases h with rfl | rfl
      · exact .slash
      · exact .star

theorem isName_tree (left right : Expr) (operator : Token) :
    (tree left operator right).isName = false := by
  unfold tree
  split <;> rfl

theorem tree_eq_node {l : Level} {operator : Token} (h : Joins l operator.kind)
    (left right : Expr) : tree left operator right = l.node left operator right := by
  unfold tree
  generalize operator.kind = k at h
  cases h <;> rfl

/-- A level with another operand, by the operators and the trees of the level. -/
theorem Expression.of_joins {l : Level} {ts us : List Token} {operator : Token} {left right : Expr}
    {bad bad' : List Token} (hl : Expression (.level l) ts left bad) (ho : l.joins operator.kind)
    (hr : Expression (operand l) us right bad') :
    Expression (.level l) (ts ++ operator :: us) (l.node left operator right) (bad ++ bad') := by
  rw [← tree_eq_node (joins_iff.mpr ho)]
  exact .join hl (joins_iff.mpr ho) hr

/-- An expression that is a lone name comes from that name alone. -/
theorem Expression.eq_name {r : Rule} {ts : List Token} {name : Token} {bad : List Token}
    (h : Expression r ts (.var name) bad) : ts = [name] ∧ name.kind = .identifier ∧ bad = [] := by
  generalize he : Expr.var name = e at h
  induction h with
  | loosest _ ih | single _ ih | primary _ ih => exact ih he
  | assign => cases he
  | misassign _ hn _ _ _ _ =>
      -- the target is the tree, and it is no name
      simp [← he, Expr.isName] at hn
  | @join _ _ _ operator left right =>
      have hname := isName_tree left right operator
      rw [← he] at hname
      cases hname
  | unary => cases he
  | atom h =>
      subst he
      cases h with
      | name hk => exact ⟨rfl, hk, rfl⟩
  | grouping => cases he

/-- The rule for statements makes exactly one. -/
theorem Statements.eq_singleton {ts : List Token} {ss : List Stmt} {bad : List Token}
    (h : Statements .statement ts ss bad) : ∃ s, ss = [s] := by
  cases h <;> exact ⟨_, rfl⟩

/-- So does the rule for declarations. -/
theorem Statements.eq_singleton_of_declaration {ts : List Token} {ss : List Stmt}
    {bad : List Token} (h : Statements .declaration ts ss bad) : ∃ s, ss = [s] := by
  cases h <;> exact ⟨_, rfl⟩

end Grammar

namespace Parse

open Grammar

/-! ## Expressions -/

/-- What the grammar makes of the tokens that a run takes. Of the rules that go on after an
expression, it tells how they extend a derivation of that expression. -/
def ExprRule.Derives : ExprRule → List Token → Expr → List Token → Prop
  | expression, us, e, bad => Expression .expression us e bad
  | assignment target, us, e, bad =>
    ∀ ts bad', Expression (.level .disjunction) ts target bad' →
      Expression .expression (ts ++ us) e (bad' ++ bad)
  | level l, us, e, bad => Expression (.level l) us e bad
  | operand l, us, e, bad => Expression (Grammar.operand l) us e bad
  | chain l left, us, e, bad =>
    ∀ ts bad', Expression (.level l) ts left bad' →
      Expression (.level l) (ts ++ us) e (bad' ++ bad)
  | unary, us, e, bad => Expression .unary us e bad
  | primary, us, e, bad => Expression .primary us e bad
  | terminated _, us, e, bad =>
    ∃ vs semicolon, us = vs ++ [semicolon] ∧ semicolon.kind = .semicolon ∧
      Expression .expression vs e bad
  | condition, us, e, bad =>
    ∃ opening vs closing, us = opening :: (vs ++ [closing]) ∧ opening.kind = .leftParen ∧
      closing.kind = .rightParen ∧ Expression .expression vs e bad

/-- The operand rule of a level, where there is a tighter one. -/
theorem operand_eq_level {l m : Level} (h : l.tighter = some m) : Grammar.operand l = .level m := by
  cases l <;> cases h <;> rfl

theorem operand_eq_unary {l : Level} (h : l.tighter = none) : Grammar.operand l = .unary := by
  cases l with
  | factor => rfl
  | _ => cases h

/-- An accepted expression has a derivation from the tokens taken, and the reports are about the
assignments that it collects. -/
theorem ReadsExpr.derives {r : ExprRule} {ts rest : List Token} {e : Expr}
    {reports : List ParseError} (h : ReadsExpr r ts (.ok e) rest reports) :
    ∃ us bad, ts = us ++ rest ∧ reports = bad.map invalidTarget ∧ r.Derives us e bad := by
  generalize ho : Except.ok e = o at h
  induction h generalizing e with
  | expression _ _ iht ih =>
      obtain ⟨us, bad, rfl, rfl, hd⟩ := iht rfl
      obtain ⟨us', bad', rfl, rfl, hd'⟩ := ih ho
      exact ⟨us ++ us', bad ++ bad', by simp, by simp, hd' us bad hd⟩
  | noEquals =>
      cases ho
      exact ⟨[], [], rfl, rfl, fun us bad hd => by simpa using hd.loosest⟩
  | @assign _ _ name equals _ _ he _ ih =>
      cases ho
      obtain ⟨us, bad, rfl, rfl, hd⟩ := ih rfl
      refine ⟨equals :: us, bad, rfl, rfl, fun vs bad' hv => ?_⟩
      -- the rule knows the tree of the target only, but a name is a tree of one token
      obtain ⟨rfl, hk, rfl⟩ := hv.eq_name
      exact .assign hk he hd
  | @misassign _ _ target equals _ _ he hn _ ih =>
      cases ho
      obtain ⟨us, bad, rfl, rfl, hd⟩ := ih rfl
      refine ⟨equals :: us, bad ++ [equals], rfl, by simp, fun vs bad' hv => ?_⟩
      simpa using Expression.misassign hv hn he hd
  | level _ _ ihl ih =>
      obtain ⟨us, bad, rfl, rfl, hd⟩ := ihl rfl
      obtain ⟨us', bad', rfl, rfl, hd'⟩ := ih ho
      exact ⟨us ++ us', bad ++ bad', by simp, by simp, hd' us bad hd.single⟩
  | tighter hm _ ih =>
      obtain ⟨us, bad, rfl, rfl, hd⟩ := ih ho
      refine ⟨us, bad, rfl, rfl, ?_⟩
      show Expression (Grammar.operand _) us e bad
      rw [operand_eq_level hm]
      exact hd
  | tightest hm _ ih =>
      obtain ⟨us, bad, rfl, rfl, hd⟩ := ih ho
      refine ⟨us, bad, rfl, rfl, ?_⟩
      show Expression (Grammar.operand _) us e bad
      rw [operand_eq_unary hm]
      exact hd
  | chainEnd =>
      cases ho
      exact ⟨[], [], rfl, rfl, fun us bad hd => by simpa using hd⟩
  | @chain _ _ _ operator _ _ _ _ _ _ hop _ _ ihr ih =>
      obtain ⟨us, bad, rfl, rfl, hd⟩ := ihr rfl
      obtain ⟨us', bad', rfl, rfl, hd'⟩ := ih ho
      refine ⟨operator :: us ++ us', bad ++ bad', by simp, by simp, fun vs bad'' hv => ?_⟩
      -- the first operator joins what stands before it, and the others go on from there
      simpa using hd' (vs ++ operator :: us) (bad'' ++ bad) (.of_joins hv hop hd)
  | @unary operator _ _ _ _ hop _ ih =>
      cases ho
      obtain ⟨us, bad, rfl, rfl, hd⟩ := ih rfl
      exact ⟨operator :: us, bad, rfl, rfl, .unary (isUnary_iff.mp hop) hd⟩
  | primary _ _ ih =>
      obtain ⟨us, bad, rfl, rfl, hd⟩ := ih ho
      exact ⟨us, bad, rfl, rfl, hd.primary⟩
  | @atom t _ _ ha =>
      cases ho
      exact ⟨[t], [], rfl, rfl, .atom (atom_iff.mpr ha)⟩
  | @grouping opening closing _ _ _ _ hop _ hc ih =>
      cases ho
      obtain ⟨us, bad, rfl, rfl, hd⟩ := ih rfl
      exact ⟨opening :: (us ++ [closing]), bad, by simp, rfl, .grouping hop hd hc⟩
  | @terminated _ semicolon _ _ _ _ _ hs ih =>
      cases ho
      obtain ⟨us, bad, rfl, rfl, hd⟩ := ih rfl
      exact ⟨us ++ [semicolon], bad, by simp, rfl, us, semicolon, rfl, hs, hd⟩
  | @condition opening closing _ _ _ _ hop _ hc ih =>
      cases ho
      obtain ⟨us, bad, rfl, rfl, hd⟩ := ih rfl
      exact ⟨opening :: (us ++ [closing]), bad, by simp, rfl, opening, us, closing, rfl, hop, hc,
        hd⟩
  | _ => cases ho

/-! ## Statements -/

variable {eof : Token}

/-- A statement that is read up to an `else` has no use for it. -/
theorem ReadsStmts.takesElse_eq_false {ts rest : List Token} {s : Stmt}
    {reports : List ParseError} (h : ReadsStmts eof .statement ts (.ok [s]) rest reports)
    (hn : nextIs (· = .kwElse) rest) : s.takesElse = false := by
  generalize hr : StmtRule.statement = r, ho : Except.ok [s] = o at h
  induction h generalizing s with
  | expression | print | block => cases ho; rfl
  | ifThen _ _ _ hn' _ => simp [hn'] at hn
  | ifElse _ _ _ _ _ _ ihe =>
      cases ho
      have ht := ihe hn rfl rfl
      exact ht
  | _ => cases hr <;> cases ho

/-- The rule of the grammar for what a rule reads. -/
def StmtRule.sentence : StmtRule → Sentence
  | declaration => .declaration
  | statement => .statement
  | declarations _ => .declarations

/-- The tokens `us`, without some of them, are the statements `ss`. If no fatal fault is among the
reports, none is left out, and the reports are about the assignments of the derivation. -/
def Yields (r : Sentence) (us : List Token) (ss : List Stmt) (reports : List ParseError) : Prop :=
  ∃ vs bad, vs.Sublist us ∧ Statements r vs ss bad ∧
    ((∀ e ∈ reports, e.isFatal = false) → vs = us ∧ reports = bad.map invalidTarget)

/-- A derivation of all the tokens leaves none out. -/
theorem Yields.of_derivation {r : Sentence} {us : List Token} {ss : List Stmt}
    {bad : List Token} (h : Statements r us ss bad) : Yields r us ss (bad.map invalidTarget) :=
  ⟨us, bad, List.Sublist.refl us, h, fun _ => ⟨rfl, rfl⟩⟩

/-- Tokens in front of a sentence that is read with a fatal fault may be left out. -/
theorem Yields.skip {r : Sentence} {us us' : List Token} {ss : List Stmt}
    {reports reports' : List ParseError} (h : Yields r us' ss reports')
    (hf : ∃ e ∈ reports, e.isFatal) : Yields r (us ++ us') ss (reports ++ reports') := by
  obtain ⟨vs, bad, hsub, hd, -⟩ := h
  refine ⟨vs, bad, hsub.trans (List.sublist_append_right us us'), hd, fun hn => ?_⟩
  obtain ⟨e, he, hfatal⟩ := hf
  simp [hn e (by simp [he])] at hfatal

/-- Kept statements have a derivation from the tokens taken, except those left out. -/
theorem ReadsStmts.derives {r : StmtRule} {ts rest : List Token} {ss : List Stmt}
    {reports : List ParseError} (h : ReadsStmts eof r ts (.ok ss) rest reports) :
    ∃ us, ts = us ++ rest ∧ Yields r.sentence us ss reports := by
  generalize ho : Except.ok ss = o at h
  induction h generalizing ss with
  | nothing =>
      cases ho
      exact ⟨[], rfl, .of_derivation .nil⟩
  | kept _ _ _ ih ihs =>
      cases ho
      obtain ⟨us, rfl, vs, bad, hsub, hd, hall⟩ := ih rfl
      obtain ⟨us', rfl, vs', bad', hsub', hd', hall'⟩ := ihs rfl
      refine ⟨us ++ us', by simp, vs ++ vs', bad ++ bad', hsub.append hsub', .cons hd hd',
        fun hn => ?_⟩
      obtain ⟨rfl, rfl⟩ := hall fun e he => hn e (by simp [he])
      obtain ⟨rfl, rfl⟩ := hall' fun e he => hn e (by simp [he])
      exact ⟨rfl, by simp⟩
  | @dropped _ _ rest _ _ _ _ _ _ h _ _ ihs =>
      cases ho
      -- left out are the tokens of the declaration and those that are passed over behind the fault
      obtain ⟨us, rfl⟩ := h.suffix
      obtain ⟨ws, hws⟩ := resume_suffix rest
      obtain ⟨us', hrest, hd⟩ := ihs rfl
      refine ⟨us ++ ws ++ us', ?_, hd.skip ⟨_, List.mem_append_right _ (List.mem_singleton_self _),
        rfl⟩⟩
      rw [List.append_assoc, List.append_assoc, ← hrest, hws]
  | @declare keyword name semicolon _ hk hn hs =>
      cases ho
      exact ⟨[keyword, name, semicolon], rfl, .of_derivation (.declare hk hn hs)⟩
  | @declareValue keyword name equals _ _ _ _ hk hn he h =>
      cases ho
      obtain ⟨us, bad, rfl, rfl, vs, semicolon, rfl, hs, hd⟩ := h.derives
      exact ⟨keyword :: name :: equals :: (vs ++ [semicolon]), rfl,
        .of_derivation (.declareValue hk hn he hd hs)⟩
  | statement _ _ ih =>
      obtain ⟨us, rfl, vs, bad, hsub, hd, hall⟩ := ih ho
      obtain ⟨s, rfl⟩ := hd.eq_singleton
      exact ⟨us, rfl, vs, bad, hsub, .statement hd, hall⟩
  | expression _ h =>
      cases ho
      obtain ⟨us, bad, rfl, rfl, vs, semicolon, rfl, hs, hd⟩ := h.derives
      exact ⟨vs ++ [semicolon], rfl, .of_derivation (.expression hd hs)⟩
  | @print keyword _ _ _ _ hk h =>
      cases ho
      obtain ⟨us, bad, rfl, rfl, vs, semicolon, rfl, hs, hd⟩ := h.derives
      exact ⟨keyword :: (vs ++ [semicolon]), rfl, .of_derivation (.print hk hd hs)⟩
  | @block opening closing _ _ _ _ hop _ hc ih =>
      cases ho
      obtain ⟨us, rfl, vs, bad, hsub, hd, hall⟩ := ih rfl
      refine ⟨opening :: (us ++ [closing]), by simp, opening :: (vs ++ [closing]), bad,
        (hsub.append (List.Sublist.refl _)).cons_cons _, .block hop hd hc, fun hn => ?_⟩
      obtain ⟨rfl, hreports⟩ := hall hn
      exact ⟨rfl, hreports⟩
  | @ifThen keyword _ _ _ _ _ _ _ hk hc _ _ ih =>
      cases ho
      obtain ⟨us, bad, rfl, rfl, opening, cs, closing, rfl, hop, hcl, hcond⟩ := hc.derives
      obtain ⟨us', rfl, vs, bad', hsub, hd, hall⟩ := ih rfl
      refine ⟨keyword :: opening :: (cs ++ closing :: us'), by simp,
        keyword :: opening :: (cs ++ closing :: vs), bad ++ bad',
        (((List.Sublist.refl cs).append (hsub.cons_cons _)).cons_cons _).cons_cons _,
        .ifThen hk hop hcond hcl hd, fun hn => ?_⟩
      obtain ⟨rfl, rfl⟩ := hall fun e he => hn e (by simp [he])
      exact ⟨rfl, by simp⟩
  | @ifElse keyword other _ _ _ _ _ _ _ _ _ _ hk hc h hw _ ih ihe =>
      cases ho
      obtain ⟨us, bad, rfl, rfl, opening, cs, closing, rfl, hop, hcl, hcond⟩ := hc.derives
      obtain ⟨us', rfl, vs, bad', hsub, hd, hall⟩ := ih rfl
      obtain ⟨us'', rfl, ws, bad'', hsub', hd', hall'⟩ := ihe rfl
      -- the first branch was read up to an `else` that it did not take
      have hn := h.takesElse_eq_false (by simpa using hw)
      refine ⟨keyword :: opening :: (cs ++ closing :: (us' ++ other :: us'')), by simp,
        keyword :: opening :: (cs ++ closing :: (vs ++ other :: ws)), bad ++ bad' ++ bad'',
        (((List.Sublist.refl cs).append
          ((hsub.append (hsub'.cons_cons _)).cons_cons _)).cons_cons _).cons_cons _,
        .ifElse hk hop hcond hcl hd hn hw hd', fun hn => ?_⟩
      obtain ⟨rfl, rfl⟩ := hall fun e he => hn e (by simp [he])
      obtain ⟨rfl, rfl⟩ := hall' fun e he => hn e (by simp [he])
      exact ⟨rfl, by simp⟩
  | _ => cases ho

end Parse

end Lox
