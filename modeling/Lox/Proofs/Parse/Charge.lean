import Mathlib.Data.List.TakeWhile
import Mathlib.Tactic
import Lox.Proofs.Parse.Relabel

set_option autoImplicit false

/-! # Reports are charged to tokens

No token is blamed twice, and together with the statements that are kept there are no more faults
than tokens (`Program.errors_charged`). The faults at the end are all blamed on the end. Each of
them, and each statement, is charged to a token that is not blamed: the first one of its
declaration, since a rule never blames the token that it has started with and gone past.
-/

namespace Lox

namespace Parse

/-! ## Charges -/

/-- The tokens that are blamed in the reports, but for the end. -/
def blamedInside (reports : List ParseError) : List Token :=
  (reports.map ParseError.token).filter (·.kind ≠ .eof)

theorem blamedInside_append (reports reports' : List ParseError) :
    blamedInside (reports ++ reports') = blamedInside reports ++ blamedInside reports' := by
  rw [blamedInside, List.map_append, List.filter_append]
  rfl

/-- The reports between `ts` and `rest` blame different tokens there, and there are as many tokens
as there are reports and `spare` more. -/
inductive Charged (ts rest : List Token) (reports : List ParseError) (spare : Nat) : Prop
  | mk (taken : List Token) (split : ts = taken ++ rest)
      (blamed : (blamedInside reports).Subperm taken)
      (count : reports.length + spare ≤ taken.length)

namespace Charged

variable {t : Token} {ts mid rest : List Token} {reports reports' : List ParseError}
  {spare spare' : Nat}

theorem nil : Charged ts ts [] 0 :=
  .mk [] rfl List.nil_subperm (Nat.le_refl 0)

theorem less (h : Charged ts rest reports spare) (hle : spare' ≤ spare) :
    Charged ts rest reports spare' := by
  obtain ⟨taken, split, blamed, count⟩ := h
  exact .mk taken split blamed (by omega)

theorem append (h : Charged ts mid reports spare) (h' : Charged mid rest reports' spare') :
    Charged ts rest (reports ++ reports') (spare + spare') := by
  obtain ⟨taken, rfl, blamed, count⟩ := h
  obtain ⟨taken', rfl, blamed', count'⟩ := h'
  refine .mk (taken ++ taken') (List.append_assoc taken taken' rest).symm ?_ ?_
  · rw [blamedInside_append]
    exact blamed.append blamed'
  · rw [List.length_append, List.length_append]
    omega

/-- In which order the reports are does not matter. -/
theorem perm (h : Charged ts rest reports spare) (hp : reports.Perm reports') :
    Charged ts rest reports' spare := by
  obtain ⟨taken, split, blamed, count⟩ := h
  have hblamed : (blamedInside reports').Perm (blamedInside reports) := (hp.symm.map _).filter _
  exact .mk taken split (hblamed.subperm.trans blamed) (hp.length_eq ▸ count)

/-- A token that is taken and not blamed is to spare. -/
theorem skip : Charged (t :: ts) ts [] 1 :=
  .mk [t] rfl List.nil_subperm (Nat.le_refl 1)

theorem cons (h : Charged ts rest reports spare) :
    Charged (t :: ts) rest reports (spare + 1) := by
  have hcons := Charged.append (skip (t := t)) h
  rwa [List.nil_append, Nat.add_comm] at hcons

/-- A report that blames the next token is charged to it. -/
theorem blame (hrest : rest <:+ ts) (cause : ParseError.Cause) :
    Charged (t :: ts) rest [⟨t, cause⟩] 0 := by
  obtain ⟨taken, rfl⟩ := hrest
  refine .mk (t :: taken) rfl ?_ (Nat.le_add_left 1 _)
  have hblamed : (blamedInside [⟨t, cause⟩]).Sublist [t] := List.filter_sublist
  exact (hblamed.trans (List.singleton_sublist.mpr List.mem_cons_self)).subperm

end Charged

/-- What a rule comes to that starts something: it has a token to spare, unless it fails at the
first token. -/
inductive Started {α : Type} (ts : List Token) :
    Except Expected α → List Token → List ParseError → Prop
  | taken {o : Except Expected α} {rest : List Token} {reports : List ParseError}
      (h : Charged ts rest reports 1) : Started ts o rest reports
  | stuck {missing : Expected} : Started ts (.error missing) ts []

namespace Started

variable {α β : Type} {ts rest : List Token} {o : Except Expected α} {reports : List ParseError}

theorem charged (h : Started ts o rest reports) : Charged ts rest reports 0 := by
  cases h with
  | taken h => exact h.less (Nat.zero_le 1)
  | stuck => exact .nil

theorem charged_of_ok {value : α} (h : Started ts (.ok value) rest reports) :
    Charged ts rest reports 1 := by
  cases h with
  | taken h => exact h

/-- A failure is passed on. -/
theorem fails {missing : Expected}
    (h : Started ts (.error missing : Except Expected α) rest reports) :
    Started ts (.error missing : Except Expected β) rest reports := by
  cases h with
  | taken h => exact .taken h
  | stuck => exact .stuck

/-- The fault of a declaration is charged to the blamed token, or at the end to the token that the
declaration has to spare. -/
theorem dropped {eof : Token} (heof : eof.kind = .eof) (hts : ts ≠ [])
    (h : Started ts o rest reports) (cause : ParseError.Cause) :
    Charged ts (resume rest) (reports ++ [⟨rest.headD eof, cause⟩]) 0 := by
  cases rest with
  | nil =>
      cases h with
      | taken h =>
          obtain ⟨taken, split, blamed, count⟩ := h
          have hinside : blamedInside (reports ++ [⟨eof, cause⟩]) = blamedInside reports := by
            rw [blamedInside_append]
            simp [blamedInside, heof]
          refine .mk taken split ?_ (by simpa using count)
          rw [List.headD_nil, hinside]
          exact blamed
      | stuck => exact absurd rfl hts
  | cons t rest =>
      have hresume : resume (t :: rest) <:+ rest := by
        rw [resume]
        split
        · exact List.suffix_rfl
        · exact resume_suffix rest
      exact h.charged.append (.blame hresume cause)

end Started

/-! ## Runs -/

/-- What the reports of a rule for expressions can be charged to. The rules that go on after an
expression have nothing to spare. -/
def ExprRule.Charges (r : ExprRule) (ts : List Token) (o : Except Expected Expr)
    (rest : List Token) (reports : List ParseError) : Prop :=
  match r with
  | .assignment _ | .chain _ _ => Charged ts rest reports 0
  | _ => Started ts o rest reports

theorem ReadsExpr.charges {r : ExprRule} {ts rest : List Token} {o : Except Expected Expr}
    {reports : List ParseError} (h : ReadsExpr r ts o rest reports) :
    r.Charges ts o rest reports := by
  induction h with
  | expression _ _ iht ih | level _ _ iht ih => exact .taken (iht.charged_of_ok.append ih)
  | expressionFails _ ih | levelFails _ ih | tighter _ _ ih | tightest _ _ ih | primary _ _ ih =>
      exact ih
  | terminatedFails _ ih => exact ih
  | noEquals | chainEnd => exact .nil
  | assign _ _ ih | valueFails _ _ ih | chainFails _ _ ih =>
      exact ih.charged.cons.less (Nat.zero_le 1)
  | misassign _ _ _ ih =>
      exact (Charged.append (.blame List.suffix_rfl _) ih.charged).perm List.perm_append_comm
  | chain _ _ _ ihr ih => exact (ihr.charged.append ih).cons.less (Nat.zero_le 1)
  | unary _ _ ih | unaryFails _ _ ih | groupingFails _ _ ih | groupingOpen _ _ _ ih
  | conditionFails _ _ ih | conditionOpen _ _ _ ih => exact .taken ih.charged.cons
  | atom => exact .taken .skip
  | grouping _ _ _ ih | condition _ _ _ ih =>
      have hclosing := ih.charged.append .skip
      rw [List.append_nil] at hclosing
      exact .taken (hclosing.cons.less (by omega))
  | noExpression | noCondition => exact .stuck
  | terminated _ _ ih =>
      have hsemicolon := ih.charged.append .skip
      rw [List.append_nil] at hsemicolon
      exact .taken hsemicolon
  | noSemicolon _ _ ih => exact .taken ih.charged_of_ok

/-- What the reports of a rule for statements can be charged to. As many tokens are to spare as
there are declarations that are kept. -/
def StmtRule.Charges (r : StmtRule) (ts : List Token) (o : Except Expected (List Stmt))
    (rest : List Token) (reports : List ParseError) : Prop :=
  match r with
  | .declarations _ => ∀ ss, o = .ok ss → Charged ts rest reports ss.length
  | _ => Started ts o rest reports

theorem ReadsStmts.charges {eof : Token} (heof : eof.kind = .eof) {r : StmtRule}
    {ts rest : List Token} {o : Except Expected (List Stmt)} {reports : List ParseError}
    (h : ReadsStmts eof r ts o rest reports) : r.Charges ts o rest reports := by
  induction h with
  | nothing =>
      rintro ss ⟨⟩
      exact .nil
  | kept _ _ _ ih ihs =>
      rintro ss ⟨⟩
      exact (ih.charged_of_ok.append (ihs _ rfl)).less (by simp [Nat.add_comm])
  | @dropped _ ts _ _ _ _ _ _ hn _ _ ih ihs =>
      rintro ss ⟨⟩
      have hts : ts ≠ [] := by
        rintro rfl
        exact absurd hn (by simp)
      exact ((ih.dropped heof hts _).append (ihs _ rfl)).less (by simp)
  | declare => exact .taken (Charged.skip.cons.cons.less (by omega))
  | declareValue _ _ _ h | valueFails _ _ _ h =>
      exact .taken (h.charges.charged.cons.cons.cons.less (by omega))
  | noName => exact .taken .skip
  | noValue => exact .taken (Charged.skip.cons.less (by omega))
  | statement _ _ ih => exact ih
  | expression _ h => exact .taken h.charges.charged_of_ok
  | expressionFails _ h => exact h.charges.fails
  | print _ h | printFails _ h | conditionFails _ h => exact .taken h.charges.charged.cons
  | block _ _ _ ih =>
      have hclosing := (ih _ rfl).append .skip
      rw [List.append_nil] at hclosing
      exact .taken (hclosing.cons.less (by omega))
  | blockOpen _ _ ih => exact .taken ((ih _ rfl).cons.less (by omega))
  | thenFails _ hc _ ih | ifThen _ hc _ _ ih =>
      exact .taken ((hc.charges.charged.append ih.charged).cons)
  | elseFails _ hc _ _ _ ih ihe | ifElse _ hc _ _ _ ih ihe =>
      exact .taken ((hc.charges.charged.append
        (ih.charged.append ihe.charged.cons)).cons.less (by omega))

end Parse

namespace Program

open Parse

/-! ## Programs -/

theorem kind_ending (ts : List Token) : (ending ts).kind = .eof := by
  unfold ending
  split
  · next eof hfind => simpa using List.find?_some hfind
  · rfl

theorem ne_eof_of_mem_body {ts : List Token} : ∀ t ∈ body ts, t.kind ≠ .eof := fun t ht => by
  simpa using List.mem_takeWhile_imp ht

/-- What is read of tokens is what is read of those before the end and the end. -/
theorem ofTokens_body (ts : List Token) : ofTokens (body ts ++ [ending ts]) = ofTokens ts := by
  show _ = (⟨(ofTokens ts).statements, (ofTokens ts).errors⟩ : Program)
  rw [ofTokens_eq_iff, body_concat ne_eof_of_mem_body (kind_ending ts),
    ending_concat ne_eof_of_mem_body (kind_ending ts)]
  exact reads_ofTokens ts

/-- A fault blames a token before the end, or the end. -/
theorem mem_of_mem_errors {ts : List Token} {e : ParseError} (he : e ∈ (ofTokens ts).errors) :
    e.token ∈ body ts ++ [ending ts] := by
  have hend : ∃ t ∈ body ts ++ [ending ts], t.kind = .eof :=
    ⟨ending ts, by simp, kind_ending ts⟩
  rw [← ofTokens_body] at he
  exact mem_of_mem_tokens hend (List.mem_append_right _ (List.mem_map_of_mem he))

/-- There is only one end to be blamed. -/
theorem token_eq_ending {ts : List Token} {e : ParseError} (he : e ∈ (ofTokens ts).errors)
    (hkind : e.token.kind = .eof) : e.token = ending ts := by
  rcases List.mem_append.mp (mem_of_mem_errors he) with hmem | hmem
  · exact absurd hkind (ne_eof_of_mem_body _ hmem)
  · exact List.mem_singleton.mp hmem

/-- The statements and the faults of a program are charged to its tokens. -/
theorem charged_ofTokens (ts : List Token) :
    (blamedInside (ofTokens ts).errors).Subperm (body ts) ∧
      (ofTokens ts).errors.length + (ofTokens ts).statements.length ≤ (body ts).length := by
  obtain ⟨_, split, blamed, count⟩ := (reads_ofTokens ts).charges (kind_ending ts) _ rfl
  rw [split, List.append_nil]
  exact ⟨blamed, count⟩

/-! ## Places -/

/-- The tokens of a program and their end, each with its place for a line. -/
def placedTokens (ts : List Token) : List Token := Token.placed (body ts ++ [ending ts])

theorem placedTokens_eq (ts : List Token) :
    body (placedTokens ts) = Token.placed (body ts) ∧
      ending (placedTokens ts) = { ending ts with line := (body ts).length } := by
  have hbody : ∀ m ∈ Token.placed (body ts), m.kind ≠ .eof := by
    intro m hm
    obtain ⟨hstanding, hkind, -⟩ := Token.standing_of_mem_placed hm
    rw [← hkind]
    exact ne_eof_of_mem_body _ (List.mem_of_getElem? hstanding)
  rw [placedTokens, Token.placed_append_singleton]
  exact ⟨body_concat hbody (kind_ending ts), ending_concat hbody (kind_ending ts)⟩

/-- The places of the blamed tokens, in the order of the faults. The end has the place behind the
tokens before it. -/
def blamedPlaces (ts : List Token) : List Nat :=
  (ofTokens (placedTokens ts)).errors.map ParseError.line

/-- The blamed tokens are those in the blamed places. -/
theorem map_token_errors (ts : List Token) :
    (ofTokens ts).errors.map (some ·.token) =
      (blamedPlaces ts).map ((body ts ++ [ending ts])[·]?) := by
  have hend : ∃ t ∈ body ts ++ [ending ts], t.kind = .eof :=
    ⟨ending ts, by simp, kind_ending ts⟩
  have hplaced : (ofTokens ts).errors = (ofTokens (placedTokens ts)).errors.map
      (ParseError.mapToken (Token.standing (body ts ++ [ending ts]))) := by
    rw [← ofTokens_body, ofTokens_placed hend]
    rfl
  rw [hplaced, blamedPlaces, List.map_map, List.map_map]
  refine List.map_congr_left fun e he => ?_
  have hmem : e.token ∈ placedTokens ts := mem_of_mem_tokens (Token.exists_eof_placed hend)
    (List.mem_append_right _ (List.mem_map_of_mem he))
  exact (Token.standing_of_mem_placed hmem).1.symm

/-- No place before the end is blamed twice. -/
theorem count_blamedPlaces_le {ts : List Token} {p : Nat} (hp : p < (body ts).length) :
    (blamedPlaces ts).count p ≤ 1 := by
  obtain ⟨hbody, hending⟩ := placedTokens_eq ts
  -- a fault in this place does not blame the end
  have hinside : ∀ e ∈ (ofTokens (placedTokens ts)).errors,
      e.token.line = p → e.token.kind ≠ .eof := by
    rintro e he rfl hkind
    have hline := congrArg Token.line (token_eq_ending he hkind)
    rw [hending] at hline
    exact absurd hp (by simp [hline])
  calc (blamedPlaces ts).count p
      = (blamedInside (ofTokens (placedTokens ts)).errors).countP (·.line == p) := by
        rw [blamedPlaces, blamedInside, List.count_eq_countP, List.countP_map, List.countP_filter,
          List.countP_map]
        exact List.countP_congr fun e he => by simpa [ParseError.line] using hinside e he
    _ ≤ (Token.placed (body ts)).countP (·.line == p) := by
        rw [← hbody]
        exact (charged_ofTokens (placedTokens ts)).1.countP_le _
    _ = (List.range (body ts).length).count p := by
        rw [← Token.map_line_placed, List.count_eq_countP, List.countP_map]
        rfl
    _ ≤ 1 := List.nodup_iff_count_le_one.mp List.nodup_range p

/-- **Each token is blamed once at most.** The blamed tokens are those in the blamed places, and no
place of a token before the end is blamed twice. So the tokens that are blamed, but for the end,
are some of those before the end, each as often as it is there, and every other fault blames the
end. Together there are no more statements and faults than tokens before the end. -/
theorem errors_charged (ts : List Token) :
    (ofTokens ts).errors.map (some ·.token) =
      (blamedPlaces ts).map ((body ts ++ [ending ts])[·]?) ∧
    (∀ p < (body ts).length, (blamedPlaces ts).count p ≤ 1) ∧
    (((ofTokens ts).errors.map ParseError.token).filter (·.kind ≠ .eof)).Subperm (body ts) ∧
    (∀ e ∈ (ofTokens ts).errors, e.token.kind = .eof → e.token = ending ts) ∧
    (ofTokens ts).statements.length + (ofTokens ts).errors.length ≤ (body ts).length := by
  obtain ⟨hinside, hcount⟩ := charged_ofTokens ts
  refine ⟨map_token_errors ts, fun p hp => count_blamedPlaces_le hp, hinside,
    fun e he hkind => token_eq_ending he hkind, ?_⟩
  rwa [Nat.add_comm]

/-- Every token can cost a fault: each open block blames the end once more. -/
example : (blamedPlaces (List.replicate 3 (word .leftBrace "\x7b"))) = [3, 3, 3] := by
  decide +kernel

end Program

end Lox
