import Lox.Proofs.Parse.Expression
import Lox.Syntax.Program

set_option autoImplicit false

/-! # Runs of the rules for statements and programs

`ReadsStmts eof r ts o rest reports` describes one run of the rule `r` for statements, as
`ReadsExpr` does for expressions. A rule for one statement comes to a list of one statement. The
rule `declaration` is the one before a faulty declaration is dropped; dropping it and resuming
behind it is a way through the rule `declarations`.

Reading a program is the one run of `declarations` on its tokens (`Program.ofTokens_eq_iff`).
-/

namespace Lox

namespace Parse

/-! ## Runs -/

/-- The rules for statements. -/
inductive StmtRule where
  | declaration
  | statement
  | declarations (inBlock : Bool)

/-- Whether a rule for several declarations stops before the tokens. -/
def stops (inBlock : Bool) : List Token → Bool
  | [] => true
  | t :: _ => inBlock && t.kind = .rightBrace

@[simp] theorem stops_nil (inBlock : Bool) : stops inBlock [] = true := rfl

@[simp] theorem stops_cons (inBlock : Bool) (t : Token) (ts : List Token) :
    stops inBlock (t :: ts) = (inBlock && t.kind = .rightBrace) := rfl

/-- Whether a statement that starts with the kind has a rule of its own. -/
def opensStatement : Token.Kind → Bool
  | .kwIf | .kwPrint | .leftBrace => true
  | _ => false

/-- The runs of the rules, where `eof` is blamed for a fault at the end of the tokens. -/
inductive ReadsStmts (eof : Token) :
    StmtRule → List Token → Except Expected (List Stmt) → List Token → List ParseError → Prop
  | nothing {inBlock : Bool} {ts : List Token} (hn : stops inBlock ts) :
      ReadsStmts eof (.declarations inBlock) ts (.ok []) ts []
  | kept {inBlock : Bool} {ts rest rest' : List Token} {s : Stmt} {ss : List Stmt}
      {reports reports' : List ParseError} (hn : stops inBlock ts = false)
      (h : ReadsStmts eof .declaration ts (.ok [s]) rest reports)
      (hs : ReadsStmts eof (.declarations inBlock) rest (.ok ss) rest' reports') :
      ReadsStmts eof (.declarations inBlock) ts (.ok (s :: ss)) rest' (reports ++ reports')
  | dropped {inBlock : Bool} {ts rest rest' : List Token} {missing : Expected} {ss : List Stmt}
      {reports reports' : List ParseError} (hn : stops inBlock ts = false)
      (h : ReadsStmts eof .declaration ts (.error missing) rest reports)
      (hs : ReadsStmts eof (.declarations inBlock) (resume rest) (.ok ss) rest' reports') :
      ReadsStmts eof (.declarations inBlock) ts (.ok ss) rest'
        (reports ++ [⟨rest.headD eof, .missing missing⟩] ++ reports')
  | declare {keyword name semicolon : Token} {rest : List Token} (hk : keyword.kind = .kwVar)
      (hn : name.kind = .identifier) (hs : semicolon.kind = .semicolon) :
      ReadsStmts eof .declaration (keyword :: name :: semicolon :: rest)
        (.ok [.declare name none]) rest []
  | declareValue {keyword name equals : Token} {ts rest : List Token} {e : Expr}
      {reports : List ParseError} (hk : keyword.kind = .kwVar) (hn : name.kind = .identifier)
      (he : equals.kind = .equal)
      (h : ReadsExpr (.terminated .semicolonAfterDeclaration) ts (.ok e) rest reports) :
      ReadsStmts eof .declaration (keyword :: name :: equals :: ts)
        (.ok [.declare name (some e)]) rest reports
  | noName {keyword : Token} {ts : List Token} (hk : keyword.kind = .kwVar)
      (hn : nextIs (· = .identifier) ts = false) :
      ReadsStmts eof .declaration (keyword :: ts) (.error .variableName) ts []
  | noValue {keyword name : Token} {ts : List Token} (hk : keyword.kind = .kwVar)
      (hn : name.kind = .identifier) (he : nextIs (· = .equal) ts = false)
      (hs : nextIs (· = .semicolon) ts = false) :
      ReadsStmts eof .declaration (keyword :: name :: ts)
        (.error .semicolonAfterDeclaration) ts []
  | valueFails {keyword name equals : Token} {ts rest : List Token} {missing : Expected}
      {reports : List ParseError} (hk : keyword.kind = .kwVar) (hn : name.kind = .identifier)
      (he : equals.kind = .equal)
      (h : ReadsExpr (.terminated .semicolonAfterDeclaration) ts (.error missing) rest reports) :
      ReadsStmts eof .declaration (keyword :: name :: equals :: ts) (.error missing) rest reports
  | statement {ts rest : List Token} {o : Except Expected (List Stmt)}
      {reports : List ParseError} (hn : nextIs (· = .kwVar) ts = false)
      (h : ReadsStmts eof .statement ts o rest reports) :
      ReadsStmts eof .declaration ts o rest reports
  | expression {ts rest : List Token} {e : Expr} {reports : List ParseError}
      (hn : nextIs opensStatement ts = false)
      (h : ReadsExpr (.terminated .semicolonAfterExpression) ts (.ok e) rest reports) :
      ReadsStmts eof .statement ts (.ok [.expression e]) rest reports
  | expressionFails {ts rest : List Token} {missing : Expected} {reports : List ParseError}
      (hn : nextIs opensStatement ts = false)
      (h : ReadsExpr (.terminated .semicolonAfterExpression) ts (.error missing) rest reports) :
      ReadsStmts eof .statement ts (.error missing) rest reports
  | print {keyword : Token} {ts rest : List Token} {e : Expr} {reports : List ParseError}
      (hk : keyword.kind = .kwPrint)
      (h : ReadsExpr (.terminated .semicolonAfterValue) ts (.ok e) rest reports) :
      ReadsStmts eof .statement (keyword :: ts) (.ok [.print e]) rest reports
  | printFails {keyword : Token} {ts rest : List Token} {missing : Expected}
      {reports : List ParseError} (hk : keyword.kind = .kwPrint)
      (h : ReadsExpr (.terminated .semicolonAfterValue) ts (.error missing) rest reports) :
      ReadsStmts eof .statement (keyword :: ts) (.error missing) rest reports
  | block {opening closing : Token} {ts rest : List Token} {ss : List Stmt}
      {reports : List ParseError} (ho : opening.kind = .leftBrace)
      (h : ReadsStmts eof (.declarations true) ts (.ok ss) (closing :: rest) reports)
      (hc : closing.kind = .rightBrace) :
      ReadsStmts eof .statement (opening :: ts) (.ok [.block ss]) rest reports
  | blockOpen {opening : Token} {ts : List Token} {ss : List Stmt}
      {reports : List ParseError} (ho : opening.kind = .leftBrace)
      (h : ReadsStmts eof (.declarations true) ts (.ok ss) [] reports) :
      ReadsStmts eof .statement (opening :: ts) (.error .braceAfterBlock) [] reports
  | conditionFails {keyword : Token} {ts rest : List Token} {missing : Expected}
      {reports : List ParseError} (hk : keyword.kind = .kwIf)
      (h : ReadsExpr .condition ts (.error missing) rest reports) :
      ReadsStmts eof .statement (keyword :: ts) (.error missing) rest reports
  | thenFails {keyword : Token} {ts rest rest' : List Token} {c : Expr} {missing : Expected}
      {reports reports' : List ParseError} (hk : keyword.kind = .kwIf)
      (hc : ReadsExpr .condition ts (.ok c) rest reports)
      (h : ReadsStmts eof .statement rest (.error missing) rest' reports') :
      ReadsStmts eof .statement (keyword :: ts) (.error missing) rest' (reports ++ reports')
  | ifThen {keyword : Token} {ts rest rest' : List Token} {c : Expr} {s : Stmt}
      {reports reports' : List ParseError} (hk : keyword.kind = .kwIf)
      (hc : ReadsExpr .condition ts (.ok c) rest reports)
      (h : ReadsStmts eof .statement rest (.ok [s]) rest' reports')
      (hn : nextIs (· = .kwElse) rest' = false) :
      ReadsStmts eof .statement (keyword :: ts) (.ok [.ifThen c s]) rest' (reports ++ reports')
  | elseFails {keyword other : Token} {ts rest rest' rest'' : List Token} {c : Expr} {s : Stmt}
      {missing : Expected} {reports reports' reports'' : List ParseError}
      (hk : keyword.kind = .kwIf) (hc : ReadsExpr .condition ts (.ok c) rest reports)
      (h : ReadsStmts eof .statement rest (.ok [s]) (other :: rest') reports')
      (ho : other.kind = .kwElse)
      (he : ReadsStmts eof .statement rest' (.error missing) rest'' reports'') :
      ReadsStmts eof .statement (keyword :: ts) (.error missing) rest''
        (reports ++ (reports' ++ reports''))
  | ifElse {keyword other : Token} {ts rest rest' rest'' : List Token} {c : Expr} {s t : Stmt}
      {reports reports' reports'' : List ParseError}
      (hk : keyword.kind = .kwIf) (hc : ReadsExpr .condition ts (.ok c) rest reports)
      (h : ReadsStmts eof .statement rest (.ok [s]) (other :: rest') reports')
      (ho : other.kind = .kwElse)
      (he : ReadsStmts eof .statement rest' (.ok [t]) rest'' reports'') :
      ReadsStmts eof .statement (keyword :: ts) (.ok [.ifElse c s t]) rest''
        (reports ++ (reports' ++ reports''))

/-! ## The rules follow the description -/

variable {eof : Token}

/-- The runs of a rule for one statement, told by the statement. -/
abbrev ReadsStmt (eof : Token) (r : StmtRule) (ts : List Token) (o : Except Expected Stmt) :
    List Token → List ParseError → Prop :=
  ReadsStmts eof r ts (o.map fun s => [s])

theorem meets_variableDeclaration {keyword : Token} (hk : keyword.kind = .kwVar)
    (ts : List Token) :
    (variableDeclaration ts).Meets (ReadsStmt eof .declaration (keyword :: ts)) := by
  rw [variableDeclaration]
  refine (meets_expect _ _ ts).andThen (fun name rest reports hr hn => ?_)
    fun missing rest reports hn => ?_
  · cases hn with
    | found hn =>
        rw [Parsed.meets_within]
        cases rest with
        | nil => exact .noValue hk hn rfl rfl
        | cons t rest =>
            rw [initializer]
            by_cases he : t.kind = .equal
            · rw [if_pos he, Parsed.meets_within, Parsed.meets_map]
              refine (meets_terminated _ rest).imp fun o rest' reports' h => ?_
              cases o with
              | error missing => exact .valueFails hk hn he h
              | ok e => exact .declareValue hk hn he h
            · rw [if_neg he]
              refine meets_expect_map (fun semicolon rest' hrest hs => ?_) fun hs => ?_
              · cases hrest
                exact .declare hk hn hs
              · exact .noValue hk hn (by simpa using he) hs
  · cases hn with
    | absent hn => exact .noName hk hn

/-- The runs of a rule for declarations that drops the faulty ones. -/
inductive Declares (eof : Token) (ts : List Token) :
    Option Stmt → List Token → List ParseError → Prop
  | kept {s : Stmt} {rest : List Token} {reports : List ParseError}
      (h : ReadsStmts eof .declaration ts (.ok [s]) rest reports) :
      Declares eof ts (some s) rest reports
  | dropped {missing : Expected} {rest : List Token} {reports : List ParseError}
      (h : ReadsStmts eof .declaration ts (.error missing) rest reports) :
      Declares eof ts none (resume rest) (reports ++ [⟨rest.headD eof, .missing missing⟩])

theorem declares_declared {n : Nat} (hn : 0 < n) {ts : List Token} {p : Parsed Stmt n}
    (h : p.Meets (ReadsStmt eof .declaration ts)) :
    Declares eof ts (p.declared eof hn).statement (p.declared eof hn).rest
      (p.declared eof hn).reports := by
  cases p with
  | accept s rest reports _ => exact .kept h
  | reject missing rest reports _ => exact .dropped h

/-- Declarations are read up to where they have to stop. -/
theorem ReadsStmts.stops_rest {inBlock : Bool} {ts rest : List Token}
    {o : Except Expected (List Stmt)} {reports : List ParseError}
    (h : ReadsStmts eof (.declarations inBlock) ts o rest reports) : stops inBlock rest := by
  generalize hr : StmtRule.declarations inBlock = r at h
  induction h with
  | nothing hn => cases hr; exact hn
  | kept _ _ _ _ ih | dropped _ _ _ _ ih => exact ih hr
  | _ => cases hr

/-- Every rule for statements follows its description. -/
theorem meets_stmtRules (eof : Token) :
    (∀ t ts, Declares eof (t :: ts) (declaration eof t ts).statement (declaration eof t ts).rest
      (declaration eof t ts).reports) ∧
    (∀ ts, (statement eof ts).Meets (ReadsStmt eof .statement ts)) ∧
    (∀ ts, (block eof ts).Meets fun o rest reports => ∀ opening : Token,
      opening.kind = .leftBrace → ReadsStmt eof .statement (opening :: ts) o rest reports) ∧
    (∀ inBlock ts, ReadsStmts eof (.declarations inBlock) ts
      (.ok (declarations eof inBlock ts).statements) (declarations eof inBlock ts).rest
      (declarations eof inBlock ts).reports) ∧
    (∀ c ts, (branches eof c ts).Meets fun o rest reports =>
      ∀ (keyword : Token) (us : List Token) (earlier : List ParseError), keyword.kind = .kwIf →
        ReadsExpr .condition us (.ok c) ts earlier →
        ReadsStmt eof .statement (keyword :: us) o rest (earlier ++ reports)) := by
  apply declaration.mutual_induct
  case case1 =>
    intro t ts hk
    rw [declaration, if_pos hk]
    exact declares_declared _ ((Parsed.meets_within _ _).mpr (meets_variableDeclaration hk ts))
  case case2 =>
    intro t ts hk ih
    rw [declaration, if_neg hk]
    exact declares_declared _ (ih.imp fun _ _ _ h => .statement (by simpa using hk) h)
  case case3 =>
    rw [statement]
    -- nothing is left, so every rule down to the primary expressions fails
    have h : ReadsExpr .unary [] (.error .expression) [] [] :=
      .primary rfl (.noExpression (by simp))
    exact .expressionFails rfl (.terminatedFails (.expressionFails h.level_of_unary_fails))
  case case4 =>
    intro t ts hk ih
    rw [statement, if_pos hk, Parsed.meets_within]
    refine (meets_condition ts).andThen (fun c rest reports hr hc => ?_)
      fun _ _ _ h => .conditionFails hk h
    exact (Parsed.meets_within _ _).mpr ((ih c rest hr).imp fun _ _ _ h => h t ts reports hk hc)
  case case5 =>
    intro t ts hi hk
    rw [statement, if_neg hi, if_pos hk, Parsed.meets_within, Parsed.meets_map]
    refine (meets_terminated _ ts).imp fun o rest reports h => ?_
    cases o with
    | error missing => exact .printFails hk h
    | ok e => exact .print hk h
  case case6 =>
    intro t ts hi hp ho ih
    rw [statement, if_neg hi, if_neg hp, if_pos ho, Parsed.meets_within]
    exact ih.imp fun _ _ _ h => h t ho
  case case7 =>
    intro t ts hi hp ho
    rw [statement, if_neg hi, if_neg hp, if_neg ho, Parsed.meets_map]
    have hn : nextIs opensStatement (t :: ts) = false := by
      rw [nextIs_cons]
      unfold opensStatement
      split <;> simp_all
    refine (meets_terminated _ (t :: ts)).imp fun o rest reports h => ?_
    cases o with
    | error missing => exact .expressionFails hn h
    | ok e => exact .expression hn h
  case case8 =>
    intro ts ss rest reports noLonger hd ih
    rw [block, hd]
    rw [hd] at ih
    simp only [Parsed.meets_after, Parsed.meets_within]
    refine meets_expect_map (fun closing rest' hrest hc opening ho => ?_) fun hn opening ho => ?_
    · subst hrest
      rw [List.append_nil]
      exact .block ho ih hc
    · -- the declarations stop before a brace or at the end, and there is no brace
      cases rest with
      | nil =>
          rw [List.append_nil]
          exact .blockOpen ho ih
      | cons t rest =>
          have hs := ih.stops_rest
          simp_all
  case case9 =>
    intro inBlock
    rw [declarations]
    exact .nothing rfl
  case case10 =>
    intro inBlock t ts hc
    rw [declarations, if_pos hc]
    exact .nothing (by simpa using hc)
  case case11 =>
    intro inBlock t ts hc statement rest reports shorter hd ss rest' reports' noLonger hds ih ihs
    obtain rfl : (declaration eof t ts).rest = rest := by rw [hd]
    have hn : stops inBlock (t :: ts) = false := by simpa using hc
    rw [declarations, if_neg hc]
    show ReadsStmts eof _ _
      (.ok ((declaration eof t ts).statement.toList ++
        (declarations eof inBlock (declaration eof t ts).rest).statements))
      (declarations eof inBlock (declaration eof t ts).rest).rest
      ((declaration eof t ts).reports ++
        (declarations eof inBlock (declaration eof t ts).rest).reports)
    -- both ways to read a declaration come as one record, whose fields `Declares` tells apart
    generalize (declaration eof t ts).statement = s, (declaration eof t ts).rest = rest,
      (declaration eof t ts).reports = reports at ih ihs ⊢
    cases ih with
    | kept h => exact .kept hn h ihs
    | dropped h => exact .dropped hn h ihs
  case case12 =>
    intro c ts ih ihe
    rw [branches]
    refine ih.andThen (fun s rest reports hr h => ?_)
      fun _ _ _ h keyword us earlier hk hc => .thenFails hk hc h
    cases rest with
    | nil =>
        intro keyword us earlier hk hc
        rw [List.append_nil]
        exact .ifThen hk hc h rfl
    | cons t rest =>
        by_cases ho : t.kind = .kwElse
        · simp only [if_pos ho, Parsed.meets_within, Parsed.meets_map]
          refine (ihe (t :: rest) t rest hr).imp
            fun o rest' reports' he keyword us earlier hk hc => ?_
          cases o with
          | error missing => exact .elseFails hk hc h ho he
          | ok e => exact .ifElse hk hc h ho he
        · simp only [if_neg ho]
          intro keyword us earlier hk hc
          rw [List.append_nil]
          exact .ifThen hk hc h (by simpa using ho)

theorem reads_declarations (eof : Token) (inBlock : Bool) (ts : List Token) :
    ReadsStmts eof (.declarations inBlock) ts (.ok (declarations eof inBlock ts).statements)
      (declarations eof inBlock ts).rest (declarations eof inBlock ts).reports :=
  (meets_stmtRules eof).2.2.2.1 inBlock ts

/-! ## The description leaves no choice -/

/-- A rule has one run on given tokens. -/
theorem ReadsStmts.unique {r : StmtRule} {ts rest rest' : List Token}
    {o o' : Except Expected (List Stmt)} {reports reports' : List ParseError}
    (h : ReadsStmts eof r ts o rest reports) (h' : ReadsStmts eof r ts o' rest' reports') :
    o = o' ∧ rest = rest' ∧ reports = reports' := by
  -- as for expressions; a statement starts with another token than the other kinds of statement
  induction h generalizing o' rest' reports' with
  | nothing hn => cases h' <;> simp_all
  | kept hn h hs ih ihs =>
      cases h' with
      | nothing hn' => simp_all
      | kept _ h' hs' =>
          obtain ⟨⟨⟩, rfl, rfl⟩ := ih h'
          obtain ⟨⟨⟩, rfl, rfl⟩ := ihs hs'
          exact ⟨rfl, rfl, rfl⟩
      | dropped _ h' _ => cases (ih h').1
  | dropped hn h hs ih ihs =>
      cases h' with
      | nothing hn' => simp_all
      | kept _ h' _ => cases (ih h').1
      | dropped _ h' hs' =>
          obtain ⟨⟨⟩, rfl, rfl⟩ := ih h'
          obtain ⟨⟨⟩, rfl, rfl⟩ := ihs hs'
          exact ⟨rfl, rfl, rfl⟩
  | declare hk hn hs => cases h' <;> simp_all
  | declareValue hk hn he h =>
      cases h' with
      | declareValue _ _ _ h' =>
          obtain ⟨⟨⟩, rfl, rfl⟩ := h.unique h'
          exact ⟨rfl, rfl, rfl⟩
      | valueFails _ _ _ h' => cases (h.unique h').1
      | _ => simp_all
  | noName hk hn => cases h' <;> simp_all
  | noValue hk hn he hs => cases h' <;> simp_all
  | valueFails hk hn he h =>
      cases h' with
      | declareValue _ _ _ h' => cases (h.unique h').1
      | valueFails _ _ _ h' =>
          obtain ⟨⟨⟩, rfl, rfl⟩ := h.unique h'
          exact ⟨rfl, rfl, rfl⟩
      | _ => simp_all
  | statement hn h ih =>
      cases h' with
      | statement _ h' => exact ih h'
      | _ => simp_all
  | expression hn h =>
      cases h' with
      | expression _ h' =>
          obtain ⟨⟨⟩, rfl, rfl⟩ := h.unique h'
          exact ⟨rfl, rfl, rfl⟩
      | expressionFails _ h' => cases (h.unique h').1
      | _ => simp_all [opensStatement]
  | expressionFails hn h =>
      cases h' with
      | expression _ h' => cases (h.unique h').1
      | expressionFails _ h' =>
          obtain ⟨⟨⟩, rfl, rfl⟩ := h.unique h'
          exact ⟨rfl, rfl, rfl⟩
      | _ => simp_all [opensStatement]
  | print hk h =>
      cases h' with
      | print _ h' =>
          obtain ⟨⟨⟩, rfl, rfl⟩ := h.unique h'
          exact ⟨rfl, rfl, rfl⟩
      | printFails _ h' => cases (h.unique h').1
      | _ => simp_all [opensStatement]
  | printFails hk h =>
      cases h' with
      | print _ h' => cases (h.unique h').1
      | printFails _ h' =>
          obtain ⟨⟨⟩, rfl, rfl⟩ := h.unique h'
          exact ⟨rfl, rfl, rfl⟩
      | _ => simp_all [opensStatement]
  | block ho h hc ih =>
      cases h' with
      | block _ h' _ =>
          obtain ⟨⟨⟩, ⟨⟩, rfl⟩ := ih h'
          exact ⟨rfl, rfl, rfl⟩
      | blockOpen _ h' => cases (ih h').2.1
      | _ => simp_all [opensStatement]
  | blockOpen ho h ih =>
      cases h' with
      | block _ h' _ => cases (ih h').2.1
      | blockOpen _ h' =>
          obtain ⟨⟨⟩, -, rfl⟩ := ih h'
          exact ⟨rfl, rfl, rfl⟩
      | _ => simp_all [opensStatement]
  | conditionFails hk h =>
      cases h' with
      | conditionFails _ h' =>
          obtain ⟨⟨⟩, rfl, rfl⟩ := h.unique h'
          exact ⟨rfl, rfl, rfl⟩
      | thenFails _ hc' _ | ifThen _ hc' _ _ | elseFails _ hc' _ _ _ | ifElse _ hc' _ _ _ =>
          cases (h.unique hc').1
      | _ => simp_all [opensStatement]
  | thenFails hk hc h ih =>
      cases h' with
      | conditionFails _ h' => cases (hc.unique h').1
      | thenFails _ hc' h' =>
          obtain ⟨⟨⟩, rfl, rfl⟩ := hc.unique hc'
          obtain ⟨⟨⟩, rfl, rfl⟩ := ih h'
          exact ⟨rfl, rfl, rfl⟩
      | ifThen _ hc' h' _ | elseFails _ hc' h' _ _ | ifElse _ hc' h' _ _ =>
          obtain ⟨⟨⟩, rfl, rfl⟩ := hc.unique hc'
          cases (ih h').1
      | _ => simp_all [opensStatement]
  | ifThen hk hc h hn ih =>
      cases h' with
      | conditionFails _ h' => cases (hc.unique h').1
      | thenFails _ hc' h' =>
          obtain ⟨⟨⟩, rfl, rfl⟩ := hc.unique hc'
          cases (ih h').1
      | ifThen _ hc' h' _ =>
          obtain ⟨⟨⟩, rfl, rfl⟩ := hc.unique hc'
          obtain ⟨⟨⟩, rfl, rfl⟩ := ih h'
          exact ⟨rfl, rfl, rfl⟩
      | elseFails _ hc' h' ho _ | ifElse _ hc' h' ho _ =>
          obtain ⟨⟨⟩, rfl, rfl⟩ := hc.unique hc'
          obtain ⟨-, rfl, -⟩ := ih h'
          simp [ho] at hn
      | _ => simp_all [opensStatement]
  | elseFails hk hc h ho he ih ihe =>
      cases h' with
      | conditionFails _ h' => cases (hc.unique h').1
      | thenFails _ hc' h' =>
          obtain ⟨⟨⟩, rfl, rfl⟩ := hc.unique hc'
          cases (ih h').1
      | ifThen _ hc' h' hn =>
          obtain ⟨⟨⟩, rfl, rfl⟩ := hc.unique hc'
          obtain ⟨-, rfl, -⟩ := ih h'
          simp [ho] at hn
      | elseFails _ hc' h' _ he' =>
          obtain ⟨⟨⟩, rfl, rfl⟩ := hc.unique hc'
          obtain ⟨⟨⟩, ⟨⟩, rfl⟩ := ih h'
          obtain ⟨⟨⟩, rfl, rfl⟩ := ihe he'
          exact ⟨rfl, rfl, rfl⟩
      | ifElse _ hc' h' _ he' =>
          obtain ⟨⟨⟩, rfl, rfl⟩ := hc.unique hc'
          obtain ⟨⟨⟩, ⟨⟩, rfl⟩ := ih h'
          cases (ihe he').1
      | _ => simp_all [opensStatement]
  | ifElse hk hc h ho he ih ihe =>
      cases h' with
      | conditionFails _ h' => cases (hc.unique h').1
      | thenFails _ hc' h' =>
          obtain ⟨⟨⟩, rfl, rfl⟩ := hc.unique hc'
          cases (ih h').1
      | ifThen _ hc' h' hn =>
          obtain ⟨⟨⟩, rfl, rfl⟩ := hc.unique hc'
          obtain ⟨-, rfl, -⟩ := ih h'
          simp [ho] at hn
      | elseFails _ hc' h' _ he' =>
          obtain ⟨⟨⟩, rfl, rfl⟩ := hc.unique hc'
          obtain ⟨⟨⟩, ⟨⟩, rfl⟩ := ih h'
          cases (ihe he').1
      | ifElse _ hc' h' _ he' =>
          obtain ⟨⟨⟩, rfl, rfl⟩ := hc.unique hc'
          obtain ⟨⟨⟩, ⟨⟩, rfl⟩ := ih h'
          obtain ⟨⟨⟩, rfl, rfl⟩ := ihe he'
          exact ⟨rfl, rfl, rfl⟩
      | _ => simp_all [opensStatement]

/-! ## The rest of a run -/

theorem resume_suffix (ts : List Token) : resume ts <:+ ts := by
  induction ts with
  | nil => exact List.suffix_rfl
  | cons t ts ih =>
      rw [resume]
      split
      · exact List.suffix_cons _ _
      · exact ih.trans (List.suffix_cons _ _)

/-- The rest of a run is a suffix of its tokens. -/
theorem ReadsStmts.suffix {r : StmtRule} {ts rest : List Token} {o : Except Expected (List Stmt)}
    {reports : List ParseError} (h : ReadsStmts eof r ts o rest reports) : rest <:+ ts := by
  induction h with
  | nothing => exact List.suffix_rfl
  | kept _ _ _ ih ihs => exact ihs.trans ih
  | dropped _ _ _ ih ihs => exact (ihs.trans (resume_suffix _)).trans ih
  | declare => exact ⟨[_, _, _], rfl⟩
  | declareValue _ _ _ h | valueFails _ _ _ h => exact h.suffix.trans ⟨[_, _, _], rfl⟩
  | noName => exact List.suffix_cons _ _
  | noValue => exact ⟨[_, _], rfl⟩
  | statement _ _ ih => exact ih
  | expression _ h | expressionFails _ h => exact h.suffix
  | print _ h | printFails _ h | conditionFails _ h =>
      exact h.suffix.trans (List.suffix_cons _ _)
  | block _ _ _ ih => exact ((List.suffix_cons _ _).trans ih).trans (List.suffix_cons _ _)
  | blockOpen _ _ ih => exact ih.trans (List.suffix_cons _ _)
  | thenFails _ hc _ ih | ifThen _ hc _ _ ih =>
      exact (ih.trans hc.suffix).trans (List.suffix_cons _ _)
  | elseFails _ hc _ _ _ ih ihe | ifElse _ hc _ _ _ ih ihe =>
      have hother := ((List.suffix_cons _ _).trans ih).trans hc.suffix
      exact (ihe.trans hother).trans (List.suffix_cons _ _)

end Parse

namespace Program

open Parse

/-- Reading a program is the run of the rule for declarations on the tokens before the end. -/
theorem ofTokens_eq_iff {ts : List Token} {ss : List Stmt} {errors : List ParseError} :
    ofTokens ts = ⟨ss, errors⟩ ↔
      ReadsStmts (ending ts) (.declarations false) (body ts) (.ok ss) [] errors := by
  have h := reads_declarations (ending ts) false (body ts)
  have hrest : (declarations (ending ts) false (body ts)).rest = [] := by
    have hs := h.stops_rest
    cases hr : (declarations (ending ts) false (body ts)).rest with
    | nil => rfl
    | cons t rest => simp [hr] at hs
  rw [hrest] at h
  constructor
  · intro hp
    obtain ⟨rfl, rfl⟩ : (declarations (ending ts) false (body ts)).statements = ss ∧
        (declarations (ending ts) false (body ts)).reports = errors := by
      simpa [ofTokens] using hp
    exact h
  · intro hp
    obtain ⟨⟨⟩, -, rfl⟩ := h.unique hp
    rfl

theorem reads_ofTokens (ts : List Token) :
    ReadsStmts (ending ts) (.declarations false) (body ts) (.ok (ofTokens ts).statements) []
      (ofTokens ts).errors := ofTokens_eq_iff.mp rfl

end Program

end Lox
