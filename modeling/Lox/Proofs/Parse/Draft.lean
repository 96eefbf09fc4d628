import Lox.Proofs.Parse.Acceptance
import Lox.Proofs.Parse.Context
import Lox.Syntax.Draft

set_option autoImplicit false

/-! # Drafts and what is read of them

Tokens have a draft if and only if they are read without a fatal fault
(`Grammar.hasDraft_iff_isProgram`). An `else` that the draft gives to the wrong `if` may be moved to
the nearest one, which changes no expression (`DraftsAll.exists_nearest`).

What is read is the settled draft, and the reports are about its misplaced equals signs
(`Program.ofTokens_draft`).
-/

namespace Lox

/-! ## Settled drafts -/

namespace Draft

/-- Settling makes a lone name of nothing else. -/
theorem isName_settled {d : Draft} (h : d.name? = none) : d.settled.isName = false := by
  induction d with
  | literal | grouping | unary => rfl
  | join => exact Grammar.isName_tree ..
  | var name => cases h
  | assign target equals value iht _ =>
      rw [settled]
      cases hn : target.name? with
      | some name => rfl
      | none => exact iht hn

theorem eq_var_of_name? {d : Draft} {name : Token} (h : d.name? = some name) : d = var name := by
  cases d with
  | var name' => rw [Option.some.inj h]
  | _ => cases h

end Draft

namespace DraftStmt

theorem takesElse_settled (s : DraftStmt) : s.settled.takesElse = s.takesElse := by
  cases s with
  | ifElse c t e =>
      rw [settled, Stmt.takesElse, takesElse]
      exact takesElse_settled e
  | expression | print | declare | block | ifThen => rfl

@[simp] theorem misplacedAll_singleton (s : DraftStmt) : misplacedAll [s] = s.misplaced := by
  simp [misplacedAll]

@[simp] theorem nearestElseAll_singleton (s : DraftStmt) :
    NearestElseAll [s] ↔ s.NearestElse := by
  simp [NearestElseAll]

end DraftStmt

/-! ## The two grammars -/

namespace Grammar

/-- What holds of unary expressions holds of every level, if it passes from operands to levels. -/
theorem rule_level_of_unary {P : Rule → Prop} (hs : ∀ l, P (operand l) → P (.level l))
    (h : P .unary) (l : Level) : P (.level l) := by
  cases hm : l.tighter with
  | none =>
      have hop := hs l
      rw [Parse.operand_eq_unary hm] at hop
      exact hop h
  | some m =>
      have hlt := Level.rank_add_one_of_tighter hm
      have hop := hs l
      rw [Parse.operand_eq_level hm] at hop
      exact hop (rule_level_of_unary hs h m)
termination_by l.rank
decreasing_by omega

/-- The settled draft is derived, and the derivation collects the misplaced equals signs. -/
theorem Drafts.derives {r : Rule} {ts : List Token} {d : Draft} (h : Drafts r ts d) :
    ∃ bad, Expression r ts d.settled bad ∧ bad.Perm d.misplaced := by
  induction h with
  | loosest _ ih =>
      obtain ⟨bad, hd, hbad⟩ := ih
      exact ⟨bad, .loosest hd, hbad⟩
  | @assign ts us equals target value _ he _ iht ih =>
      obtain ⟨bad, hdt, hbad⟩ := iht
      obtain ⟨bad', hd, hbad'⟩ := ih
      rw [Draft.settled, Draft.misplaced]
      cases hn : target.name? with
      | some name =>
          -- the left side is one token, and nothing is misplaced in it
          obtain rfl := Draft.eq_var_of_name? hn
          obtain ⟨rfl, hk, rfl⟩ := hdt.eq_name
          exact ⟨bad', .assign hk he hd, by simpa [Draft.misplaced] using hbad'⟩
      | none =>
          refine ⟨bad ++ bad' ++ [equals], .misassign hdt (Draft.isName_settled hn) he hd, ?_⟩
          have hswap : (bad ++ bad' ++ [equals]).Perm (bad ++ [equals] ++ bad') := by
            rw [List.append_assoc, List.append_assoc]
            exact List.perm_append_comm.append_left bad
          exact hswap.trans ((hbad.append_right [equals]).append hbad')
  | single _ ih =>
      obtain ⟨bad, hd, hbad⟩ := ih
      exact ⟨bad, .single hd, hbad⟩
  | join _ ho _ ihl ihr =>
      obtain ⟨bad, hd, hbad⟩ := ihl
      obtain ⟨bad', hd', hbad'⟩ := ihr
      exact ⟨bad ++ bad', .join hd ho hd', hbad.append hbad'⟩
  | unary ho _ ih =>
      obtain ⟨bad, hd, hbad⟩ := ih
      exact ⟨bad, .unary ho hd, hbad⟩
  | primary _ ih =>
      obtain ⟨bad, hd, hbad⟩ := ih
      exact ⟨bad, .primary hd, hbad⟩
  | literal h => exact ⟨[], .atom h, .nil⟩
  | name h => exact ⟨[], .atom (.name h), .nil⟩
  | grouping ho _ hc ih =>
      obtain ⟨bad, hd, hbad⟩ := ih
      exact ⟨bad, .grouping ho hd hc, hbad⟩

/-- Every derived expression has a draft. -/
theorem Expression.exists_draft {r : Rule} {ts : List Token} {e : Expr} {bad : List Token}
    (h : Expression r ts e bad) : ∃ d, Drafts r ts d := by
  induction h with
  | loosest _ ih =>
      obtain ⟨d, hd⟩ := ih
      exact ⟨d, .loosest hd⟩
  | @assign name equals _ _ _ hn he _ ih =>
      obtain ⟨d, hd⟩ := ih
      have hname : Drafts .unary [name] (.var name) := .primary (.name hn)
      have htarget := rule_level_of_unary (P := fun r => Drafts r [name] (.var name))
        (fun _ h => .single h) hname .disjunction
      exact ⟨.assign (.var name) equals d, .assign htarget he hd⟩
  | misassign _ _ he _ iht ih =>
      obtain ⟨target, hdt⟩ := iht
      obtain ⟨d, hd⟩ := ih
      exact ⟨_, .assign hdt he hd⟩
  | single _ ih =>
      obtain ⟨d, hd⟩ := ih
      exact ⟨d, .single hd⟩
  | join _ ho _ ihl ihr =>
      obtain ⟨left, hdl⟩ := ihl
      obtain ⟨right, hdr⟩ := ihr
      exact ⟨_, .join hdl ho hdr⟩
  | unary ho _ ih =>
      obtain ⟨d, hd⟩ := ih
      exact ⟨_, .unary ho hd⟩
  | primary _ ih =>
      obtain ⟨d, hd⟩ := ih
      exact ⟨d, .primary hd⟩
  | atom h =>
      cases h with
      | «false» h => exact ⟨_, .literal (.false h)⟩
      | «true» h => exact ⟨_, .literal (.true h)⟩
      | nil h => exact ⟨_, .literal (.nil h)⟩
      | number h hl hv => exact ⟨_, .literal (.number h hl hv)⟩
      | string h hl hv => exact ⟨_, .literal (.string h hl hv)⟩
      | name h => exact ⟨_, .name h⟩
  | grouping ho _ hc ih =>
      obtain ⟨d, hd⟩ := ih
      exact ⟨_, .grouping ho hd hc⟩

/-- The same for statements whose `else`s belong to the nearest `if`s. -/
theorem DraftsAll.derives {r : Sentence} {ts : List Token} {ss : List DraftStmt}
    (h : DraftsAll r ts ss) (hn : DraftStmt.NearestElseAll ss) :
    ∃ bad, Statements r ts (DraftStmt.settledAll ss) bad ∧
      bad.Perm (DraftStmt.misplacedAll ss) := by
  induction h with
  | nil => exact ⟨[], .nil, .nil⟩
  | cons _ _ ih ihs =>
      obtain ⟨bad, hd, hbad⟩ := ih ⟨hn.1, trivial⟩
      obtain ⟨bad', hd', hbad'⟩ := ihs hn.2
      rw [DraftStmt.misplacedAll_singleton] at hbad
      exact ⟨bad ++ bad', .cons hd hd', hbad.append hbad'⟩
  | declare hk hname hs => exact ⟨[], .declare hk hname hs, .nil⟩
  | declareValue hk hname he h hs =>
      obtain ⟨bad, hd, hbad⟩ := h.derives
      exact ⟨bad, .declareValue hk hname he hd hs, by simpa [DraftStmt.misplaced] using hbad⟩
  | statement _ ih =>
      obtain ⟨bad, hd, hbad⟩ := ih hn
      exact ⟨bad, .statement hd, hbad⟩
  | expression h hs =>
      obtain ⟨bad, hd, hbad⟩ := h.derives
      exact ⟨bad, .expression hd hs, by simpa [DraftStmt.misplaced] using hbad⟩
  | print hk h hs =>
      obtain ⟨bad, hd, hbad⟩ := h.derives
      exact ⟨bad, .print hk hd hs, by simpa [DraftStmt.misplaced] using hbad⟩
  | block ho _ hc ih =>
      obtain ⟨bad, hd, hbad⟩ := ih hn.1
      exact ⟨bad, .block ho hd hc, by simpa [DraftStmt.misplaced] using hbad⟩
  | ifThen hk ho h hc _ ih =>
      obtain ⟨bad, hdc, hbad⟩ := h.derives
      obtain ⟨bad', hd, hbad'⟩ := ih ⟨hn.1, trivial⟩
      rw [DraftStmt.misplacedAll_singleton] at hbad'
      exact ⟨bad ++ bad', .ifThen hk ho hdc hc hd, by
        simpa [DraftStmt.misplaced] using hbad.append hbad'⟩
  | ifElse hk ho h hc _ hw _ ih iht =>
      obtain ⟨⟨htakes, hthen, helse⟩, -⟩ := hn
      obtain ⟨bad, hdc, hbad⟩ := h.derives
      obtain ⟨bad', hd, hbad'⟩ := ih ⟨hthen, trivial⟩
      obtain ⟨bad'', hd', hbad''⟩ := iht ⟨helse, trivial⟩
      rw [DraftStmt.misplacedAll_singleton] at hbad' hbad''
      rw [← DraftStmt.takesElse_settled] at htakes
      refine ⟨bad ++ bad' ++ bad'', .ifElse hk ho hdc hc hd htakes hw hd', ?_⟩
      simpa [DraftStmt.misplaced] using hbad.append (hbad'.append hbad'')

/-- Every derived statement has a draft. -/
theorem Statements.exists_draft {r : Sentence} {ts : List Token} {ss : List Stmt}
    {bad : List Token} (h : Statements r ts ss bad) :
    ∃ ds, DraftsAll r ts ds ∧ (r ≠ .declarations → ∃ d, ds = [d]) := by
  induction h with
  | nil => exact ⟨[], .nil, fun h => absurd rfl h⟩
  | cons _ _ ih ihs =>
      obtain ⟨_, hd, hone⟩ := ih
      obtain ⟨d, rfl⟩ := hone (by simp)
      obtain ⟨ds, hds, -⟩ := ihs
      exact ⟨d :: ds, .cons hd hds, fun h => absurd rfl h⟩
  | declare hk hn hs => exact ⟨_, .declare hk hn hs, fun _ => ⟨_, rfl⟩⟩
  | declareValue hk hn he h hs =>
      obtain ⟨d, hd⟩ := h.exists_draft
      exact ⟨_, .declareValue hk hn he hd hs, fun _ => ⟨_, rfl⟩⟩
  | statement _ ih =>
      obtain ⟨_, hd, hone⟩ := ih
      obtain ⟨d, rfl⟩ := hone (by simp)
      exact ⟨[d], .statement hd, fun _ => ⟨d, rfl⟩⟩
  | expression h hs =>
      obtain ⟨d, hd⟩ := h.exists_draft
      exact ⟨_, .expression hd hs, fun _ => ⟨_, rfl⟩⟩
  | print hk h hs =>
      obtain ⟨d, hd⟩ := h.exists_draft
      exact ⟨_, .print hk hd hs, fun _ => ⟨_, rfl⟩⟩
  | block ho _ hc ih =>
      obtain ⟨ds, hd, -⟩ := ih
      exact ⟨_, .block ho hd hc, fun _ => ⟨_, rfl⟩⟩
  | ifThen hk ho h hc _ ih =>
      obtain ⟨c, hdc⟩ := h.exists_draft
      obtain ⟨_, hd, hone⟩ := ih
      obtain ⟨d, rfl⟩ := hone (by simp)
      exact ⟨_, .ifThen hk ho hdc hc hd, fun _ => ⟨_, rfl⟩⟩
  | ifElse hk ho h hc _ _ hw _ ih iht =>
      obtain ⟨c, hdc⟩ := h.exists_draft
      obtain ⟨_, hd, hone⟩ := ih
      obtain ⟨d, rfl⟩ := hone (by simp)
      obtain ⟨_, hd', hone'⟩ := iht
      obtain ⟨d', rfl⟩ := hone' (by simp)
      exact ⟨_, .ifElse hk ho hdc hc hd hw hd', fun _ => ⟨_, rfl⟩⟩

/-! ## The nearest `if` -/

open DraftStmt

/-- A statement with an `else` behind it that it can take, and the branch after that `else`, are
one statement. -/
theorem DraftsAll.exists_taken {us vs : List Token} {s t : DraftStmt} {other : Token}
    (h : DraftsAll .statement us [s]) (hs : s.NearestElse) (htakes : s.takesElse)
    (hw : other.kind = .kwElse) (ht : DraftsAll .statement vs [t]) (hn : t.NearestElse) :
    ∃ s', DraftsAll .statement (us ++ other :: vs) [s'] ∧ s'.NearestElse ∧
      s'.misplaced = s.misplaced ++ t.misplaced := by
  generalize hss : [s] = ss, hr : Sentence.statement = r at h
  induction h generalizing s with
  | @ifThen _ _ _ _ us c s' hk ho h hc hd ih =>
      cases hss
      by_cases hs' : s'.takesElse
      · -- the branch ends in an `if` that is nearer
        obtain ⟨u, hu, hnu, hmu⟩ := ih (s := s') hs hs' rfl rfl
        refine ⟨.ifThen c u, ?_, hnu, ?_⟩
        · simpa using DraftsAll.ifThen hk ho h hc hu
        · simp [DraftStmt.misplaced, hmu]
      · refine ⟨.ifElse c s' t, ?_, ⟨by simpa using hs', hs, hn⟩, by simp [DraftStmt.misplaced]⟩
        simpa using DraftsAll.ifElse hk ho h hc hd hw ht
  | @ifElse _ _ _ _ _ _ _ c s' t' hk ho h hc hd hw' _ _ iht =>
      cases hss
      obtain ⟨htakes', hs', ht'⟩ := hs
      obtain ⟨u, hu, hnu, hmu⟩ := iht ht' htakes rfl rfl
      refine ⟨.ifElse c s' u, ?_, ⟨htakes', hs', hnu⟩, by simp [DraftStmt.misplaced, hmu]⟩
      simpa using DraftsAll.ifElse hk ho h hc hd hw' hu
  | nil | cons => cases hr
  | declare | declareValue | statement => cases hr
  | expression | print | block =>
      cases hss
      cases htakes

/-- Whatever draft the tokens have, they have one with the same misplaced equals signs in which
every `else` belongs to the nearest `if`. -/
theorem DraftsAll.exists_nearest {r : Sentence} {ts : List Token} {ss : List DraftStmt}
    (h : DraftsAll r ts ss) :
    ∃ ss', DraftsAll r ts ss' ∧ NearestElseAll ss' ∧ misplacedAll ss' = misplacedAll ss ∧
      ss'.length = ss.length := by
  induction h with
  | nil => exact ⟨[], .nil, trivial, rfl, rfl⟩
  | cons _ _ ih ihs =>
      obtain ⟨_, hd, hn, hm, hlen⟩ := ih
      obtain ⟨s', rfl⟩ := List.length_eq_one_iff.mp hlen
      obtain ⟨ss', hds, hns, hms, hlens⟩ := ihs
      rw [misplacedAll_singleton, misplacedAll_singleton] at hm
      exact ⟨s' :: ss', .cons hd hds, ⟨hn.1, hns⟩, by rw [misplacedAll, misplacedAll, hm, hms],
        by simp [hlens]⟩
  | declare hk hn hs => exact ⟨_, .declare hk hn hs, ⟨trivial, trivial⟩, rfl, rfl⟩
  | declareValue hk hn he h hs =>
      exact ⟨_, .declareValue hk hn he h hs, ⟨trivial, trivial⟩, rfl, rfl⟩
  | statement _ ih =>
      obtain ⟨_, hd, hn, hm, hlen⟩ := ih
      obtain ⟨s', rfl⟩ := List.length_eq_one_iff.mp hlen
      exact ⟨[s'], .statement hd, hn, hm, rfl⟩
  | expression h hs => exact ⟨_, .expression h hs, ⟨trivial, trivial⟩, rfl, rfl⟩
  | print hk h hs => exact ⟨_, .print hk h hs, ⟨trivial, trivial⟩, rfl, rfl⟩
  | block ho _ hc ih =>
      obtain ⟨ss', hd, hn, hm, -⟩ := ih
      exact ⟨_, .block ho hd hc, ⟨hn, trivial⟩, by simp [DraftStmt.misplaced, hm], rfl⟩
  | ifThen hk ho h hc _ ih =>
      obtain ⟨_, hd, hn, hm, hlen⟩ := ih
      obtain ⟨s', rfl⟩ := List.length_eq_one_iff.mp hlen
      simp only [misplacedAll_singleton] at hm
      exact ⟨_, .ifThen hk ho h hc hd, ⟨hn.1, trivial⟩, by simp [DraftStmt.misplaced, hm], rfl⟩
  | @ifElse _ _ _ _ _ _ _ c _ _ hk ho h hc _ hw _ ih iht =>
      obtain ⟨_, hd, hn, hm, hlen⟩ := ih
      obtain ⟨s', rfl⟩ := List.length_eq_one_iff.mp hlen
      obtain ⟨_, hd', hn', hm', hlen'⟩ := iht
      obtain ⟨t', rfl⟩ := List.length_eq_one_iff.mp hlen'
      simp only [misplacedAll_singleton] at hm hm'
      by_cases htakes : s'.takesElse
      · -- the `else` belongs to an `if` inside the first branch
        obtain ⟨u, hu, hnu, hmu⟩ := hd.exists_taken hn.1 htakes hw hd' hn'.1
        exact ⟨[.ifThen c u], .ifThen hk ho h hc hu, ⟨hnu, trivial⟩,
          by simp [DraftStmt.misplaced, hmu, hm, hm'], rfl⟩
      · exact ⟨[.ifElse c s' t'], .ifElse hk ho h hc hd hw hd',
          ⟨⟨by simpa using htakes, hn.1, hn'.1⟩, trivial⟩,
          by simp [DraftStmt.misplaced, hm, hm'], rfl⟩

/-- No token of a program stands for the end. -/
theorem Statements.ne_eof {r : Sentence} {ts : List Token} {ss : List Stmt} {bad : List Token}
    (h : Statements r ts ss bad) : ∀ t ∈ ts, t.kind ≠ .eof := by
  have hexpr : ∀ {us : List Token} {e : Expr} {bad : List Token}, Expression .expression us e bad →
      ∀ t ∈ us, t.kind ≠ .eof := by
    intro us e bad h t ht hk
    have hoccurs := Parse.occursInExpr_of_mem h t ht
    rw [hk] at hoccurs
    cases hoccurs
  induction h with
  | nil => simp
  | cons _ _ ih ihs => exact List.forall_mem_append.mpr ⟨ih, ihs⟩
  | declare hk hn hs => simp [hk, hn, hs]
  | declareValue hk hn he h hs =>
      simpa [hk, hn, he, hs, or_imp, forall_and] using hexpr h
  | statement _ ih => exact ih
  | expression h hs => simpa [hs, or_imp, forall_and] using hexpr h
  | print hk h hs => simpa [hk, hs, or_imp, forall_and] using hexpr h
  | block ho _ hc ih => simpa [ho, hc, or_imp, forall_and] using ih
  | ifThen hk ho h hc _ ih =>
      simpa [hk, ho, hc, or_imp, forall_and] using ⟨hexpr h, ih⟩
  | ifElse hk ho h hc _ _ hw _ ih iht =>
      simpa [hk, ho, hc, hw, or_imp, forall_and] using ⟨hexpr h, ih, iht⟩

/-- Where an `else` belongs makes no difference to which tokens are a program. -/
theorem hasDraft_iff_isProgram {ts : List Token} : HasDraft ts ↔ IsProgram ts := by
  constructor
  · rintro ⟨ss, h⟩
    obtain ⟨ss', h', hn, -, -⟩ := h.exists_nearest
    obtain ⟨bad, hd, -⟩ := h'.derives hn
    exact ⟨_, bad, hd⟩
  · rintro ⟨ss, bad, h⟩
    obtain ⟨ds, hd, -⟩ := h.exists_draft
    exact ⟨ds, hd⟩

end Grammar

namespace Program

open Parse Grammar

/-! ## What is read of a draft -/

/-- Derived tokens before the end are read as the derived statements. -/
theorem ofTokens_of_statements {ts : List Token} {ss : List Stmt} {bad : List Token} {eof : Token}
    (h : Statements .declarations ts ss bad) (heof : eof.kind = .eof) :
    ofTokens (ts ++ [eof]) = ⟨ss, bad.map invalidTarget⟩ := by
  rw [ofTokens_eq_iff, body_concat h.ne_eof heof]
  exact (reads_nonfatal_iff.mpr ⟨bad, h, rfl⟩).1

/-- **Invalid targets.** A program that has a draft is read with one report for each misplaced
equals sign of the draft and no other faults. If every `else` of the draft belongs to the nearest
`if`, the draft is what is read, settled; and there is such a draft. -/
theorem ofTokens_draft {ts : List Token} {ss : List DraftStmt} {eof : Token}
    (heof : eof.kind = .eof) (h : DraftsAll .declarations ts ss) :
    (ofTokens (ts ++ [eof])).errors.Perm ((DraftStmt.misplacedAll ss).map invalidTarget) ∧
    (DraftStmt.NearestElseAll ss →
      (ofTokens (ts ++ [eof])).statements = DraftStmt.settledAll ss) ∧
    ∃ ss', DraftsAll .declarations ts ss' ∧ DraftStmt.NearestElseAll ss' := by
  obtain ⟨ss', h', hn', hm, -⟩ := h.exists_nearest
  refine ⟨?_, fun hn => ?_, ss', h', hn'⟩
  · obtain ⟨bad, hd, hbad⟩ := h'.derives hn'
    rw [ofTokens_of_statements hd heof, ← hm]
    exact hbad.map invalidTarget
  · obtain ⟨bad, hd, -⟩ := h.derives hn
    rw [ofTokens_of_statements hd heof]

/-- The token `=` on the line `line`. -/
def equalsOn (line : Nat) : Token := ⟨.equal, "=", none, line⟩

/-- The tokens of `"s" = -a = b = 1;` with the equals signs on the lines 1, 2 and 3. -/
def nestedTargets : List Token :=
  [stringToken, equalsOn 1, word .minus "-", word .identifier "a", equalsOn 2,
   word .identifier "b", equalsOn 3, oneToken, word .semicolon ";"]

/-- The draft of `"s" = -a = b = 1;`. -/
def nestedTargetsDraft : Draft :=
  .assign (.literal (.string "s")) (equalsOn 1)
    (.assign (.unary (word .minus "-") (.var (word .identifier "a"))) (equalsOn 2)
      (.assign (.var (word .identifier "b")) (equalsOn 3) (.literal (.number 1))))

/-- Two of three assignments are left out, and one of them lies in the value of the other. -/
theorem ofTokens_nestedTargets :
    (Token.endOn 1).kind = .eof ∧
    DraftsAll .declarations nestedTargets [.expression nestedTargetsDraft] ∧
    DraftStmt.NearestElseAll [.expression nestedTargetsDraft] ∧
    DraftStmt.misplacedAll [.expression nestedTargetsDraft] = [equalsOn 1, equalsOn 2] ∧
    (ofTokens (nestedTargets ++ [Token.endOn 1])).errors.Perm
      [invalidTarget (equalsOn 1), invalidTarget (equalsOn 2)] ∧
    (ofTokens (nestedTargets ++ [Token.endOn 1])).statements =
      [.expression (.literal (.string "s"))] := by
  have heof : (Token.endOn 1).kind = .eof := rfl
  have hlevel : ∀ {ts : List Token} {d : Draft}, Drafts .unary ts d →
      Drafts (.level .disjunction) ts d := fun {ts d} h =>
    rule_level_of_unary (P := fun r => Drafts r ts d) (fun _ h => .single h) h .disjunction
  have hstring : Drafts (.level .disjunction) [stringToken] (.literal (.string "s")) :=
    hlevel (.primary (.literal (.string rfl rfl .string)))
  have hone : Drafts (.level .disjunction) [oneToken] (.literal (.number 1)) :=
    hlevel (.primary (.literal (.number rfl rfl .number)))
  have hminus : Drafts (.level .disjunction) [word .minus "-", word .identifier "a"]
      (.unary (word .minus "-") (.var (word .identifier "a"))) :=
    hlevel (.unary (.inr rfl) (.primary (.name rfl)))
  have hb : Drafts (.level .disjunction) [word .identifier "b"] (.var (word .identifier "b")) :=
    hlevel (.primary (.name rfl))
  have hd : Drafts .expression nestedTargets.dropLast nestedTargetsDraft :=
    .assign hstring rfl (.assign hminus rfl (.assign hb rfl (.loosest hone)))
  have h : DraftsAll .declarations nestedTargets [.expression nestedTargetsDraft] :=
    .cons (.statement (.expression hd rfl)) .nil
  have hn : DraftStmt.NearestElseAll [.expression nestedTargetsDraft] := ⟨trivial, trivial⟩
  obtain ⟨herrors, hstatements, -⟩ := ofTokens_draft heof h
  exact ⟨heof, h, hn, rfl, herrors, hstatements hn⟩

end Program

end Lox
