import Lox.Proofs.Parse.Acceptance
import Lox.Proofs.Parse.Context
import Lox.Proofs.Scan.Coverage

set_option autoImplicit false

/-! # The order of reports

The faults of a source are reported in the order of their lines, with one exception. That the left
side of an assignment is not a name is only reported when the right side has been read, so after the
faults of the same kind in the right side (`Program.errors_ordered`).
-/

namespace Lox

namespace Parse

open Grammar

/-- Both reports are about the left sides of assignments, and the first assignment lies in the right
side of the second one. -/
def InValue (ts : List Token) (e e' : ParseError) : Prop :=
  e.cause = .invalidTarget ∧ e'.cause = .invalidTarget ∧
    ∃ us value bad, (e'.token :: us) <:+: ts ∧ Expression .expression us value bad ∧ e.token ∈ bad

/-- The report blames a token between `ts` and `rest`, or the end if nothing is left. -/
def Blames (eof : Token) (ts rest : List Token) (e : ParseError) : Prop :=
  ∃ taken, ts = taken ++ rest ∧ (e.token ∈ taken ∨ rest = [] ∧ e.token = eof)

/-- The reports between `ts` and `rest`, where all the tokens are `whole`, are in order. -/
structure InOrder (eof : Token) (whole ts rest : List Token) (reports : List ParseError) :
    Prop where
  suffix : rest <:+ ts
  blames : ∀ e ∈ reports, Blames eof ts rest e
  ordered : reports.Pairwise fun e e' => e.line ≤ e'.line ∨ InValue whole e e'

variable {eof : Token} {whole : List Token}

namespace InOrder

theorem nil {ts rest : List Token} (h : rest <:+ ts) : InOrder eof whole ts rest [] :=
  ⟨h, by simp, .nil⟩

theorem cons {t : Token} {ts rest : List Token} {reports : List ParseError}
    (h : InOrder eof whole ts rest reports) : InOrder eof whole (t :: ts) rest reports := by
  refine ⟨h.suffix.trans (List.suffix_cons _ _), fun e he => ?_, h.ordered⟩
  obtain ⟨taken, rfl, hblamed⟩ := h.blames e he
  exact ⟨t :: taken, rfl, hblamed.imp_left (List.mem_cons_of_mem t)⟩

/-- Reports one after the other are in order if the tokens are on lines that never decrease. -/
theorem append (hsorted : (whole ++ [eof]).Pairwise (·.line ≤ ·.line))
    {ts mid rest : List Token} {reports reports' : List ParseError} (hw : ts <:+ whole)
    (h : InOrder eof whole ts mid reports) (h' : InOrder eof whole mid rest reports') :
    InOrder eof whole ts rest (reports ++ reports') := by
  refine ⟨h'.suffix.trans h.suffix, fun e he => ?_, ?_⟩
  · rcases List.mem_append.mp he with he | he
    · obtain ⟨taken, rfl, hblamed⟩ := h.blames e he
      obtain ⟨taken', rfl⟩ := h'.suffix
      refine ⟨taken ++ taken', by simp, ?_⟩
      rcases hblamed with hmem | ⟨hend, heof⟩
      · exact .inl (List.mem_append_left _ hmem)
      · exact .inr ⟨(List.append_eq_nil_iff.mp hend).2, heof⟩
    · obtain ⟨taken, rfl⟩ := h.suffix
      obtain ⟨taken', rfl, hblamed⟩ := h'.blames e he
      exact ⟨taken ++ taken', by simp, hblamed.imp_left (List.mem_append_right _)⟩
  · refine List.pairwise_append.mpr ⟨h.ordered, h'.ordered, fun e he e' he' => .inl ?_⟩
    obtain ⟨front, rfl⟩ := hw
    obtain ⟨taken, rfl, hblamed⟩ := h.blames e he
    obtain ⟨taken', rfl, hblamed'⟩ := h'.blames e' he'
    simp only [List.append_assoc, List.pairwise_append, List.mem_append] at hsorted
    show e.token.line ≤ e'.token.line
    rcases hblamed with hmem | ⟨hend, heof⟩
    · rcases hblamed' with hmem' | ⟨-, heof'⟩
      · exact hsorted.2.1.2.2 _ hmem _ (.inl hmem')
      · exact hsorted.2.1.2.2 _ hmem _ (.inr (.inr (by simp [heof'])))
    · -- nothing is left for the second report but the end
      obtain ⟨rfl, rfl⟩ := List.append_eq_nil_iff.mp hend
      rcases hblamed' with hmem' | ⟨-, heof'⟩
      · cases hmem'
      · rw [heof, heof']

/-- The report about an assignment comes after those about its right side. -/
theorem misassign {ts rest : List Token} {equals : Token} {value : Expr}
    {reports : List ParseError} (hw : equals :: ts <:+ whole)
    (hr : ReadsExpr .expression ts (.ok value) rest reports)
    (h : InOrder eof whole ts rest reports) :
    InOrder eof whole (equals :: ts) rest (reports ++ [invalidTarget equals]) := by
  obtain ⟨us, bad, rfl, rfl, hd⟩ := hr.derives
  refine ⟨h.cons.suffix, List.forall_mem_append.mpr ⟨h.cons.blames, ?_⟩,
    List.pairwise_append.mpr ⟨h.ordered, List.pairwise_singleton _ _, ?_⟩⟩
  · rw [List.forall_mem_singleton]
    exact ⟨equals :: us, rfl, .inl List.mem_cons_self⟩
  · intro e he e' he'
    obtain rfl := List.mem_singleton.mp he'
    obtain ⟨t, ht, rfl⟩ := List.mem_map.mp he
    obtain ⟨front, rfl⟩ := hw
    exact .inr ⟨rfl, rfl, us, value, bad, ⟨front, rest, by simp [invalidTarget]⟩, hd, ht⟩

end InOrder

theorem suffix_of_cons {t : Token} {ts us : List Token} (h : t :: ts <:+ us) : ts <:+ us :=
  (List.suffix_cons t ts).trans h

/-- The reports of a rule for expressions are in order. -/
theorem ReadsExpr.inOrder (hsorted : (whole ++ [eof]).Pairwise (·.line ≤ ·.line)) {r : ExprRule}
    {ts rest : List Token} {o : Except Expected Expr} {reports : List ParseError}
    (h : ReadsExpr r ts o rest reports) (hw : ts <:+ whole) :
    InOrder eof whole ts rest reports := by
  induction h with
  | noEquals | chainEnd | noExpression | noCondition => exact .nil List.suffix_rfl
  | atom => exact .nil (List.suffix_cons _ _)
  | expression ht _ iht ih | level ht _ iht ih =>
      exact .append hsorted hw (iht hw) (ih (ht.suffix.trans hw))
  | chain _ hr _ ihr ih =>
      have hts := suffix_of_cons hw
      exact .cons (.append hsorted hts (ihr hts) (ih (hr.suffix.trans hts)))
  | misassign _ _ h ih => exact .misassign hw h (ih (suffix_of_cons hw))
  | expressionFails _ ih | levelFails _ ih | tighter _ _ ih | tightest _ _ ih | primary _ _ ih
  | terminatedFails _ ih | noSemicolon _ _ ih => exact ih hw
  | assign _ _ ih | valueFails _ _ ih | chainFails _ _ ih | unary _ _ ih | unaryFails _ _ ih
  | groupingFails _ _ ih | groupingOpen _ _ _ ih | conditionFails _ _ ih
  | conditionOpen _ _ _ ih => exact .cons (ih (suffix_of_cons hw))
  | grouping _ _ _ ih | condition _ _ _ ih =>
      have hts := suffix_of_cons hw
      have hclosing := InOrder.append hsorted hts (ih hts) (.nil (List.suffix_cons _ _))
      rw [List.append_nil] at hclosing
      exact hclosing.cons
  | terminated _ _ ih =>
      have hsemicolon := InOrder.append hsorted hw (ih hw) (.nil (List.suffix_cons _ _))
      rwa [List.append_nil] at hsemicolon

theorem InOrder.blamed (rest : List Token) (missing : Expected) :
    InOrder eof whole rest (resume rest) [⟨rest.headD eof, .missing missing⟩] := by
  refine ⟨resume_suffix rest, ?_, List.pairwise_singleton _ _⟩
  rw [List.forall_mem_singleton]
  cases rest with
  | nil => exact ⟨[], rfl, .inr ⟨rfl, rfl⟩⟩
  | cons t rest =>
      obtain ⟨us, hus⟩ : resume (t :: rest) <:+ rest := by
        rw [resume]
        split
        · exact List.suffix_rfl
        · exact resume_suffix rest
      exact ⟨t :: us, by rw [List.cons_append, hus], .inl List.mem_cons_self⟩

/-- The reports of a rule for statements are in order. -/
theorem ReadsStmts.inOrder (hsorted : (whole ++ [eof]).Pairwise (·.line ≤ ·.line)) {r : StmtRule}
    {ts rest : List Token} {o : Except Expected (List Stmt)} {reports : List ParseError}
    (h : ReadsStmts eof r ts o rest reports) (hw : ts <:+ whole) :
    InOrder eof whole ts rest reports := by
  induction h with
  | nothing => exact .nil List.suffix_rfl
  | kept _ h _ ih ihs => exact .append hsorted hw (ih hw) (ihs (h.suffix.trans hw))
  | @dropped _ _ rest _ missing _ _ _ _ h _ ih ihs =>
      have hrest := (resume_suffix rest).trans (h.suffix.trans hw)
      exact .append hsorted hw (.append hsorted hw (ih hw) (.blamed rest missing)) (ihs hrest)
  | declare => exact .nil ⟨[_, _, _], rfl⟩
  | noName => exact .nil (List.suffix_cons _ _)
  | noValue => exact .nil ⟨[_, _], rfl⟩
  | declareValue _ _ _ h | valueFails _ _ _ h =>
      have hts := suffix_of_cons (suffix_of_cons (suffix_of_cons hw))
      exact (h.inOrder hsorted hts).cons.cons.cons
  | statement _ _ ih => exact ih hw
  | expression _ h | expressionFails _ h => exact h.inOrder hsorted hw
  | print _ h | printFails _ h | conditionFails _ h =>
      exact (h.inOrder hsorted (suffix_of_cons hw)).cons
  | block _ _ _ ih =>
      have hts := suffix_of_cons hw
      have hclosing := InOrder.append hsorted hts (ih hts) (.nil (List.suffix_cons _ _))
      rw [List.append_nil] at hclosing
      exact hclosing.cons
  | blockOpen _ _ ih => exact (ih (suffix_of_cons hw)).cons
  | thenFails _ hc _ ih | ifThen _ hc _ _ ih =>
      have hts := suffix_of_cons hw
      exact (InOrder.append hsorted hts (hc.inOrder hsorted hts) (ih (hc.suffix.trans hts))).cons
  | elseFails _ hc h _ _ ih ihe | ifElse _ hc h _ _ ih ihe =>
      have hts := suffix_of_cons hw
      have hthen := hc.suffix.trans hts
      have helse := suffix_of_cons (h.suffix.trans hthen)
      have hbranches := InOrder.append hsorted hthen (ih hthen)
        (ihe helse).cons
      exact (InOrder.append hsorted hts (hc.inOrder hsorted hts) hbranches).cons

end Parse

namespace Program

open Parse

/-- **Reports in order.** The faults of a source are reported in the order of their lines, but that
the left side of an assignment is not a name is reported after the faults of the same kind in its
right side. -/
theorem errors_ordered (source : String) :
    (ofTokens (Scan.ofString source).tokens).errors.Pairwise fun e e' =>
      e.line ≤ e'.line ∨ InValue (Scan.ofString source).tokens e e' := by
  obtain ⟨ts, line, htokens, hts⟩ := Scan.exists_tokens_eq source
  have hsorted := Token.Stream.tokens_sorted source
  have hread := reads_ofTokens (Scan.ofString source).tokens
  rw [htokens] at hsorted
  rw [htokens, body_concat hts rfl, ending_concat hts rfl, ← htokens] at hread
  refine (hread.inOrder hsorted List.suffix_rfl).ordered.imp fun h => h.imp_right ?_
  rintro ⟨hcause, hcause', us, value, bad, hinfix, hd, hmem⟩
  rw [htokens]
  exact ⟨hcause, hcause', us, value, bad, hinfix.trans (List.infix_append' [] ts _), hd, hmem⟩

/-- An assignment in the right side of another one comes first, even if it is on a later line. -/
theorem errors_out_of_order :
    (ofTokens (Scan.ofString "1 =\n 2 =\n 3;").tokens).errors.map (·.line) = [2, 1] ∧
    ¬ ∀ source, (ofTokens (Scan.ofString source).tokens).errors.Pairwise (·.line ≤ ·.line) := by
  have hlines : (ofTokens (Scan.ofString "1 =\n 2 =\n 3;").tokens).errors.map (·.line) =
      [2, 1] := by decide +kernel
  refine ⟨hlines, fun h => ?_⟩
  have hsorted := List.pairwise_map.mpr (h "1 =\n 2 =\n 3;")
  rw [hlines] at hsorted
  exact absurd hsorted (by decide)

end Program

end Lox
