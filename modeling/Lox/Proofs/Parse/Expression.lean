import Mathlib.Tactic
import Lox.Syntax.Declaration
import Lox.Syntax.Grammar

set_option autoImplicit false

/-! # Runs of the rules for expressions

`ReadsExpr r ts o rest reports` describes one run of the rule `r` on the tokens `ts`: it comes to
the expression or the demand `o`, stops before `rest`, and has reported `reports`. There is one
constructor for each way through a rule, so a property of all runs is proved by one induction.

The rules follow this description (`meets_expression` and so on), and the description leaves no
choice (`ReadsExpr.unique`).
-/

namespace Lox

/-! ## The outcome of a rule -/

namespace Parsed

variable {α β : Type} {m n : Nat}

/-- The outcome has the property `R`, which speaks of the value or the demand, of the rest, and of
the reports. The bound is left out. -/
def Meets (R : Except Expected α → List Token → List ParseError → Prop) : Parsed α n → Prop
  | accept value rest reports _ => R (.ok value) rest reports
  | reject missing rest reports _ => R (.error missing) rest reports

variable {R : Except Expected α → List Token → List ParseError → Prop}
  {S : Except Expected β → List Token → List ParseError → Prop}

@[simp] theorem meets_within (h : m ≤ n) (p : Parsed α m) : (p.within h).Meets R ↔ p.Meets R := by
  cases p <;> exact Iff.rfl

theorem meets_after (earlier : List ParseError) (p : Parsed α n) :
    (p.after earlier).Meets R ↔ p.Meets fun o rest reports => R o rest (earlier ++ reports) := by
  cases p <;> exact Iff.rfl

theorem meets_map (f : α → β) (p : Parsed α n) :
    (p.map f).Meets S ↔ p.Meets fun o => S (o.map f) := by
  cases p <;> exact Iff.rfl

theorem Meets.imp {T : Except Expected α → List Token → List ParseError → Prop} {p : Parsed α n}
    (hp : p.Meets R) (h : ∀ o rest reports, R o rest reports → T o rest reports) : p.Meets T := by
  cases p with
  | accept value rest reports _ => exact h _ _ _ hp
  | reject missing rest reports _ => exact h _ _ _ hp

/-- What follows acceptance may use what the first rule is known to have accepted. -/
theorem Meets.andThen {p : Parsed α n}
    {next : α → (rest : List Token) → rest.length < n → Parsed β n} (hp : p.Meets R)
    (hs : ∀ value rest reports (h : rest.length < n), R (.ok value) rest reports →
      (next value rest h).Meets fun o rest' reports' => S o rest' (reports ++ reports'))
    (hf : ∀ missing rest reports, R (.error missing) rest reports →
      S (.error missing) rest reports) :
    (p.andThen next).Meets S := by
  cases p with
  | accept value rest reports h => exact (meets_after _ _).mpr (hs value rest reports h hp)
  | reject missing rest reports h => exact hf missing rest reports hp

end Parsed

namespace Parse

/-- Whether the first of the tokens is of a kind with the property `p`. -/
def nextIs (p : Token.Kind → Bool) : List Token → Bool
  | [] => false
  | t :: _ => p t.kind

@[simp] theorem nextIs_cons (p : Token.Kind → Bool) (t : Token) (ts : List Token) :
    nextIs p (t :: ts) = p t.kind := rfl

/-- Tokens put behind others do not change which token is next. -/
theorem nextIs_append (p : Token.Kind → Bool) {ts : List Token} (h : ts ≠ []) (us : List Token) :
    nextIs p (ts ++ us) = nextIs p ts := by
  cases ts with
  | nil => exact absurd rfl h
  | cons t ts => rfl

/-- The runs of expecting a token of the kind `kind`. -/
inductive Expects (kind : Token.Kind) (missing : Expected) :
    List Token → Except Expected Token → List Token → List ParseError → Prop
  | found {t : Token} {rest : List Token} (hk : t.kind = kind) :
      Expects kind missing (t :: rest) (.ok t) rest []
  | absent {ts : List Token} (hn : nextIs (· = kind) ts = false) :
      Expects kind missing ts (.error missing) ts []

theorem meets_expect (kind : Token.Kind) (missing : Expected) (ts : List Token) :
    (expect kind missing ts).Meets (Expects kind missing ts) := by
  cases ts with
  | nil => exact .absent rfl
  | cons t rest =>
      rw [expect]
      by_cases h : t.kind = kind
      · rw [if_pos h]
        exact .found h
      · rw [if_neg h]
        exact .absent (by simpa using h)

/-- The case where it does not matter which token is taken. -/
theorem meets_expect_map {α : Type} {R : Except Expected α → List Token → List ParseError → Prop}
    {kind : Token.Kind} {missing : Expected} {ts : List Token} {value : α}
    (hs : ∀ t rest, ts = t :: rest → t.kind = kind → R (.ok value) rest [])
    (hf : nextIs (· = kind) ts = false → R (.error missing) ts []) :
    ((expect kind missing ts).map fun _ => value).Meets R := by
  refine (Parsed.meets_map _ _).mpr ((meets_expect kind missing ts).imp fun o rest reports h => ?_)
  cases h with
  | found hk => exact hs _ _ rfl hk
  | absent hn => exact hf hn

/-! ## Runs -/

/-- The rules for expressions, and those that end with an expression and a token behind it. -/
inductive ExprRule where
  | expression
  | assignment (target : Expr)
  | level (l : Level)
  | operand (l : Level)
  | chain (l : Level) (left : Expr)
  | unary
  | primary
  | terminated (missing : Expected)
  | condition

/-- The report of an assignment to something else than a name. -/
def invalidTarget (equals : Token) : ParseError := ⟨equals, .invalidTarget⟩

/-- The runs of the rules. -/
inductive ReadsExpr :
    ExprRule → List Token → Except Expected Expr → List Token → List ParseError → Prop
  | expression {ts rest rest' : List Token} {target : Expr} {o : Except Expected Expr}
      {reports reports' : List ParseError}
      (ht : ReadsExpr (.level .disjunction) ts (.ok target) rest reports)
      (h : ReadsExpr (.assignment target) rest o rest' reports') :
      ReadsExpr .expression ts o rest' (reports ++ reports')
  | expressionFails {ts rest : List Token} {missing : Expected} {reports : List ParseError}
      (h : ReadsExpr (.level .disjunction) ts (.error missing) rest reports) :
      ReadsExpr .expression ts (.error missing) rest reports
  | noEquals {ts : List Token} {target : Expr} (hn : nextIs (· = .equal) ts = false) :
      ReadsExpr (.assignment target) ts (.ok target) ts []
  | assign {ts rest : List Token} {name equals : Token} {value : Expr}
      {reports : List ParseError} (he : equals.kind = .equal)
      (h : ReadsExpr .expression ts (.ok value) rest reports) :
      ReadsExpr (.assignment (.var name)) (equals :: ts) (.ok (.assign name value)) rest reports
  | misassign {ts rest : List Token} {target : Expr} {equals : Token} {value : Expr}
      {reports : List ParseError} (he : equals.kind = .equal) (hn : target.isName = false)
      (h : ReadsExpr .expression ts (.ok value) rest reports) :
      ReadsExpr (.assignment target) (equals :: ts) (.ok target) rest
        (reports ++ [invalidTarget equals])
  | valueFails {ts rest : List Token} {target : Expr} {equals : Token} {missing : Expected}
      {reports : List ParseError} (he : equals.kind = .equal)
      (h : ReadsExpr .expression ts (.error missing) rest reports) :
      ReadsExpr (.assignment target) (equals :: ts) (.error missing) rest reports
  | level {l : Level} {ts rest rest' : List Token} {left : Expr} {o : Except Expected Expr}
      {reports reports' : List ParseError}
      (hl : ReadsExpr (.operand l) ts (.ok left) rest reports)
      (h : ReadsExpr (.chain l left) rest o rest' reports') :
      ReadsExpr (.level l) ts o rest' (reports ++ reports')
  | levelFails {l : Level} {ts rest : List Token} {missing : Expected}
      {reports : List ParseError} (h : ReadsExpr (.operand l) ts (.error missing) rest reports) :
      ReadsExpr (.level l) ts (.error missing) rest reports
  | tighter {l m : Level} {ts rest : List Token} {o : Except Expected Expr}
      {reports : List ParseError} (hm : l.tighter = some m)
      (h : ReadsExpr (.level m) ts o rest reports) : ReadsExpr (.operand l) ts o rest reports
  | tightest {l : Level} {ts rest : List Token} {o : Except Expected Expr}
      {reports : List ParseError} (hm : l.tighter = none) (h : ReadsExpr .unary ts o rest reports) :
      ReadsExpr (.operand l) ts o rest reports
  | chainEnd {l : Level} {left : Expr} {ts : List Token} (hn : nextIs l.joins ts = false) :
      ReadsExpr (.chain l left) ts (.ok left) ts []
  | chain {l : Level} {left right : Expr} {operator : Token} {ts rest rest' : List Token}
      {o : Except Expected Expr} {reports reports' : List ParseError}
      (ho : l.joins operator.kind) (hr : ReadsExpr (.operand l) ts (.ok right) rest reports)
      (h : ReadsExpr (.chain l (l.node left operator right)) rest o rest' reports') :
      ReadsExpr (.chain l left) (operator :: ts) o rest' (reports ++ reports')
  | chainFails {l : Level} {left : Expr} {operator : Token} {ts rest : List Token}
      {missing : Expected} {reports : List ParseError} (ho : l.joins operator.kind)
      (h : ReadsExpr (.operand l) ts (.error missing) rest reports) :
      ReadsExpr (.chain l left) (operator :: ts) (.error missing) rest reports
  | unary {operator : Token} {ts rest : List Token} {e : Expr} {reports : List ParseError}
      (ho : operator.kind.isUnary) (h : ReadsExpr .unary ts (.ok e) rest reports) :
      ReadsExpr .unary (operator :: ts) (.ok (.unary operator e)) rest reports
  | unaryFails {operator : Token} {ts rest : List Token} {missing : Expected}
      {reports : List ParseError} (ho : operator.kind.isUnary)
      (h : ReadsExpr .unary ts (.error missing) rest reports) :
      ReadsExpr .unary (operator :: ts) (.error missing) rest reports
  | primary {ts rest : List Token} {o : Except Expected Expr} {reports : List ParseError}
      (hn : nextIs Token.Kind.isUnary ts = false) (h : ReadsExpr .primary ts o rest reports) :
      ReadsExpr .unary ts o rest reports
  | atom {t : Token} {ts : List Token} {e : Expr} (ha : t.atom? = some e) :
      ReadsExpr .primary (t :: ts) (.ok e) ts []
  | grouping {opening closing : Token} {ts rest : List Token} {e : Expr}
      {reports : List ParseError} (ho : opening.kind = .leftParen)
      (h : ReadsExpr .expression ts (.ok e) (closing :: rest) reports)
      (hc : closing.kind = .rightParen) :
      ReadsExpr .primary (opening :: ts) (.ok (.grouping e)) rest reports
  | groupingFails {opening : Token} {ts rest : List Token} {missing : Expected}
      {reports : List ParseError} (ho : opening.kind = .leftParen)
      (h : ReadsExpr .expression ts (.error missing) rest reports) :
      ReadsExpr .primary (opening :: ts) (.error missing) rest reports
  | groupingOpen {opening : Token} {ts rest : List Token} {e : Expr} {reports : List ParseError}
      (ho : opening.kind = .leftParen) (h : ReadsExpr .expression ts (.ok e) rest reports)
      (hn : nextIs (· = .rightParen) rest = false) :
      ReadsExpr .primary (opening :: ts) (.error .parenAfterExpression) rest reports
  | noExpression {ts : List Token}
      (hn : ∀ t ∈ ts.head?, t.atom? = none ∧ t.kind ≠ .leftParen) :
      ReadsExpr .primary ts (.error .expression) ts []
  | terminated {missing : Expected} {semicolon : Token} {ts rest : List Token} {e : Expr}
      {reports : List ParseError}
      (h : ReadsExpr .expression ts (.ok e) (semicolon :: rest) reports)
      (hs : semicolon.kind = .semicolon) :
      ReadsExpr (.terminated missing) ts (.ok e) rest reports
  | terminatedFails {missing missing' : Expected} {ts rest : List Token}
      {reports : List ParseError} (h : ReadsExpr .expression ts (.error missing') rest reports) :
      ReadsExpr (.terminated missing) ts (.error missing') rest reports
  | noSemicolon {missing : Expected} {ts rest : List Token} {e : Expr} {reports : List ParseError}
      (h : ReadsExpr .expression ts (.ok e) rest reports)
      (hn : nextIs (· = .semicolon) rest = false) :
      ReadsExpr (.terminated missing) ts (.error missing) rest reports
  | condition {opening closing : Token} {ts rest : List Token} {e : Expr}
      {reports : List ParseError} (ho : opening.kind = .leftParen)
      (h : ReadsExpr .expression ts (.ok e) (closing :: rest) reports)
      (hc : closing.kind = .rightParen) :
      ReadsExpr .condition (opening :: ts) (.ok e) rest reports
  | noCondition {ts : List Token} (hn : nextIs (· = .leftParen) ts = false) :
      ReadsExpr .condition ts (.error .parenAfterIf) ts []
  | conditionFails {opening : Token} {ts rest : List Token} {missing : Expected}
      {reports : List ParseError} (ho : opening.kind = .leftParen)
      (h : ReadsExpr .expression ts (.error missing) rest reports) :
      ReadsExpr .condition (opening :: ts) (.error missing) rest reports
  | conditionOpen {opening : Token} {ts rest : List Token} {e : Expr} {reports : List ParseError}
      (ho : opening.kind = .leftParen) (h : ReadsExpr .expression ts (.ok e) rest reports)
      (hn : nextIs (· = .rightParen) rest = false) :
      ReadsExpr .condition (opening :: ts) (.error .parenAfterCondition) rest reports

/-! ## The rules follow the description -/

theorem isName_eq_true {e : Expr} (h : e.isName) : ∃ name, e = .var name := by
  cases e with
  | var name => exact ⟨name, rfl⟩
  | _ => simp [Expr.isName] at h

theorem meets_assign {n : Nat} {ts rest : List Token} {target value : Expr} {equals : Token}
    {reports : List ParseError} (he : equals.kind = .equal) (shorter : rest.length < n)
    (h : ReadsExpr .expression ts (.ok value) rest reports) :
    (assign target equals value rest shorter).Meets fun o rest' reports' =>
      ReadsExpr (.assignment target) (equals :: ts) o rest' (reports ++ reports') := by
  -- the value was read in either case; whether it is kept depends on the target only
  by_cases hn : target.isName
  · obtain ⟨name, rfl⟩ := isName_eq_true hn
    simpa [assign, Parsed.Meets] using ReadsExpr.assign he h
  · have hn : target.isName = false := by simpa using hn
    have hm : ReadsExpr (.assignment target) (equals :: ts) (.ok target) rest
        (reports ++ [invalidTarget equals]) := .misassign he hn h
    cases target with
    | var name => simp [Expr.isName] at hn
    | _ => exact hm

/-- Every rule for expressions follows its description. -/
theorem meets_rules :
    (∀ ts, (expression ts).Meets (ReadsExpr .expression ts)) ∧
    (∀ target ts, (assignment target ts).Meets (ReadsExpr (.assignment target) ts)) ∧
    (∀ l ts, (level l ts).Meets (ReadsExpr (.level l) ts)) ∧
    (∀ l left ts, (chain l left ts).Meets (ReadsExpr (.chain l left) ts)) ∧
    (∀ l ts, (operand l ts).Meets (ReadsExpr (.operand l) ts)) ∧
    (∀ ts, (unary ts).Meets (ReadsExpr .unary ts)) ∧
    (∀ t ts, (primary t ts).Meets (ReadsExpr .primary (t :: ts))) := by
  apply expression.mutual_induct
  -- the cases are the branches of the rules, in the order in which these are defined
  case case1 =>
    intro ts iht ih
    rw [expression]
    refine iht.andThen (fun target rest reports hr ht => ?_) fun _ _ _ h => .expressionFails h
    exact (Parsed.meets_within _ _).mpr ((ih target rest hr).imp fun _ _ _ h => .expression ht h)
  case case2 =>
    intro target
    rw [assignment]
    exact .noEquals rfl
  case case3 =>
    intro target t rest he ih
    rw [assignment, if_pos he, Parsed.meets_within]
    exact ih.andThen (fun value rest' reports hr h => meets_assign he hr h)
      fun _ _ _ h => .valueFails he h
  case case4 =>
    intro target t rest he
    rw [assignment, if_neg he]
    exact .noEquals (by simpa using he)
  case case5 =>
    intro l ts iho ih
    rw [level]
    refine iho.andThen (fun left rest reports hr hl => ?_) fun _ _ _ h => .levelFails h
    exact (Parsed.meets_within _ _).mpr ((ih left rest hr).imp fun _ _ _ h => .level hl h)
  case case6 =>
    intro l left
    rw [chain]
    exact .chainEnd rfl
  case case7 =>
    intro l left t rest ho iho ih
    rw [chain, if_pos ho, Parsed.meets_within]
    refine iho.andThen (fun right rest' reports hr hright => ?_) fun _ _ _ h => .chainFails ho h
    exact (Parsed.meets_within _ _).mpr
      ((ih right rest' hr).imp fun _ _ _ h => .chain ho hright h)
  case case8 =>
    intro l left t rest ho
    rw [chain, if_neg ho]
    exact .chainEnd (by simpa using ho)
  case case9 =>
    intro l ts m hm ih
    rw [operand]
    -- the rule matches on the tighter level together with a proof, so `rw [hm]` does not apply
    split
    · next m' hm' =>
      obtain rfl : m = m' := Option.some.inj (hm.symm.trans hm')
      exact ih.imp fun _ _ _ h => .tighter hm h
    · next hm' => exact absurd (hm.symm.trans hm') (by simp)
  case case10 =>
    intro l ts hm ih
    rw [operand]
    split
    · next m hm' => exact absurd (hm.symm.trans hm') (by simp)
    · exact ih.imp fun _ _ _ h => .tightest hm h
  case case11 =>
    rw [unary]
    exact .primary rfl (.noExpression (by simp))
  case case12 =>
    intro t rest ho ih
    rw [unary, if_pos ho, Parsed.meets_within, Parsed.meets_map]
    refine ih.imp fun o rest' reports h => ?_
    cases o with
    | error missing => exact .unaryFails ho h
    | ok e => exact .unary ho h
  case case13 =>
    intro t rest ho ih
    rw [unary, if_neg ho]
    exact ih.imp fun _ _ _ h => .primary (by simpa using ho) h
  case case14 =>
    intro t ts e ha
    rw [primary]
    simp only [ha]
    exact .atom ha
  case case15 =>
    intro t ts ha ho ih
    rw [primary]
    simp only [ha, if_pos ho, Parsed.meets_within]
    refine ih.andThen (fun inner rest reports hr h => ?_) fun _ _ _ h => .groupingFails ho h
    rw [Parsed.meets_within]
    refine meets_expect_map (fun closing rest' hrest hc => ?_) fun hn => ?_
    · subst hrest
      simpa using ReadsExpr.grouping ho h hc
    · simpa using ReadsExpr.groupingOpen ho h hn
  case case16 =>
    intro t ts ha ho
    rw [primary]
    simp only [ha, if_neg ho]
    exact .noExpression (by simpa using ⟨ha, ho⟩)

theorem meets_expression (ts : List Token) :
    (expression ts).Meets (ReadsExpr .expression ts) := meets_rules.1 ts

theorem meets_terminated (missing : Expected) (ts : List Token) :
    (terminated missing ts).Meets (ReadsExpr (.terminated missing) ts) := by
  rw [terminated]
  refine (meets_expression ts).andThen (fun e rest reports hr h => ?_)
    fun _ _ _ h => .terminatedFails h
  rw [Parsed.meets_within]
  refine meets_expect_map (fun semicolon rest' hrest hs => ?_) fun hn => ?_
  · subst hrest
    simpa using ReadsExpr.terminated h hs
  · simpa using ReadsExpr.noSemicolon h hn

theorem meets_condition (ts : List Token) : (condition ts).Meets (ReadsExpr .condition ts) := by
  rw [condition]
  refine (meets_expect _ _ ts).andThen (fun opening rest reports hr ho => ?_)
    fun missing rest reports hn => ?_
  · cases ho with
    | found ho =>
        rw [Parsed.meets_within]
        refine (meets_expression rest).andThen (fun e rest' reports' hr' h => ?_)
          fun _ _ _ h => .conditionFails ho h
        rw [Parsed.meets_within]
        refine meets_expect_map (fun closing rest'' hrest hc => ?_) fun hn => ?_
        · subst hrest
          simpa using ReadsExpr.condition ho h hc
        · simpa using ReadsExpr.conditionOpen ho h hn
  · cases hn with
    | absent hn => exact .noCondition hn

/-! ## The description leaves no choice -/

theorem atom?_of_leftParen {t : Token} (h : t.kind = .leftParen) : t.atom? = none := by
  simp [Token.atom?, h]

/-- A rule has one run on given tokens. -/
theorem ReadsExpr.unique {r : ExprRule} {ts rest rest' : List Token} {o o' : Except Expected Expr}
    {reports reports' : List ParseError} (h : ReadsExpr r ts o rest reports)
    (h' : ReadsExpr r ts o' rest' reports') : o = o' ∧ rest = rest' ∧ reports = reports' := by
  -- along the first run: the second one takes the same way, or it needs another token or another
  -- outcome of the part before
  induction h generalizing o' rest' reports' with
  | expression ht h iht ih =>
      cases h' with
      | expression ht' h' =>
          obtain ⟨⟨⟩, rfl, rfl⟩ := iht ht'
          obtain ⟨rfl, rfl, rfl⟩ := ih h'
          exact ⟨rfl, rfl, rfl⟩
      | expressionFails h' => cases (iht h').1
  | expressionFails h ih =>
      cases h' with
      | expression ht' _ => cases (ih ht').1
      | expressionFails h' => exact ih h'
  | noEquals hn => cases h' <;> simp_all
  | assign he h ih =>
      cases h' with
      | noEquals hn => simp [he] at hn
      | assign _ h' =>
          obtain ⟨⟨⟩, rfl, rfl⟩ := ih h'
          exact ⟨rfl, rfl, rfl⟩
      | misassign _ hn _ => simp [Expr.isName] at hn
      | valueFails _ h' => cases (ih h').1
  | misassign he hn h ih =>
      cases h' with
      | noEquals hn => simp [he] at hn
      | assign _ _ => simp [Expr.isName] at hn
      | misassign _ _ h' =>
          obtain ⟨⟨⟩, rfl, rfl⟩ := ih h'
          exact ⟨rfl, rfl, rfl⟩
      | valueFails _ h' => cases (ih h').1
  | valueFails he h ih =>
      cases h' with
      | noEquals hn => simp [he] at hn
      | assign _ h' => cases (ih h').1
      | misassign _ _ h' => cases (ih h').1
      | valueFails _ h' => exact ih h'
  | level hl h ihl ih =>
      cases h' with
      | level hl' h' =>
          obtain ⟨⟨⟩, rfl, rfl⟩ := ihl hl'
          obtain ⟨rfl, rfl, rfl⟩ := ih h'
          exact ⟨rfl, rfl, rfl⟩
      | levelFails h' => cases (ihl h').1
  | levelFails h ih =>
      cases h' with
      | level hl' _ => cases (ih hl').1
      | levelFails h' => exact ih h'
  | tighter hm h ih =>
      cases h' with
      | tighter hm' h' =>
          obtain rfl := Option.some.inj (hm.symm.trans hm')
          exact ih h'
      | tightest hm' _ => cases hm.symm.trans hm'
  | tightest hm h ih =>
      cases h' with
      | tighter hm' _ => cases hm.symm.trans hm'
      | tightest _ h' => exact ih h'
  | chainEnd hn => cases h' <;> simp_all
  | chain ho hr h ihr ih =>
      cases h' with
      | chainEnd hn => simp [ho] at hn
      | chain _ hr' h' =>
          obtain ⟨⟨⟩, rfl, rfl⟩ := ihr hr'
          obtain ⟨rfl, rfl, rfl⟩ := ih h'
          exact ⟨rfl, rfl, rfl⟩
      | chainFails _ h' => cases (ihr h').1
  | chainFails ho h ih =>
      cases h' with
      | chainEnd hn => simp [ho] at hn
      | chain _ hr' _ => cases (ih hr').1
      | chainFails _ h' => exact ih h'
  | unary ho h ih =>
      cases h' with
      | unary _ h' =>
          obtain ⟨⟨⟩, rfl, rfl⟩ := ih h'
          exact ⟨rfl, rfl, rfl⟩
      | unaryFails _ h' => cases (ih h').1
      | primary hn _ => simp [ho] at hn
  | unaryFails ho h ih =>
      cases h' with
      | unary _ h' => cases (ih h').1
      | unaryFails _ h' => exact ih h'
      | primary hn _ => simp [ho] at hn
  | primary hn h ih =>
      cases h' with
      | unary ho _ => simp [ho] at hn
      | unaryFails ho _ => simp [ho] at hn
      | primary _ h' => exact ih h'
  | atom ha =>
      cases h' with
      | atom ha' => cases ha.symm.trans ha'; exact ⟨rfl, rfl, rfl⟩
      | grouping ho _ _ => simp [atom?_of_leftParen ho] at ha
      | groupingFails ho _ => simp [atom?_of_leftParen ho] at ha
      | groupingOpen ho _ _ => simp [atom?_of_leftParen ho] at ha
      | noExpression hn => simp [ha] at hn
  | grouping ho h hc ih =>
      cases h' with
      | atom ha => simp [atom?_of_leftParen ho] at ha
      | grouping _ h' _ =>
          obtain ⟨⟨⟩, ⟨⟩, rfl⟩ := ih h'
          exact ⟨rfl, rfl, rfl⟩
      | groupingFails _ h' => cases (ih h').1
      | groupingOpen _ h' hn =>
          -- both runs stop before the same token, which is a parenthesis
          obtain ⟨-, rfl, -⟩ := ih h'
          simp [hc] at hn
      | noExpression hn => simp [ho] at hn
  | groupingFails ho h ih =>
      cases h' with
      | atom ha => simp [atom?_of_leftParen ho] at ha
      | grouping _ h' _ => cases (ih h').1
      | groupingFails _ h' => exact ih h'
      | groupingOpen _ h' _ => cases (ih h').1
      | noExpression hn => simp [ho] at hn
  | groupingOpen ho h hn ih =>
      cases h' with
      | atom ha => simp [atom?_of_leftParen ho] at ha
      | grouping _ h' hc =>
          obtain ⟨-, rfl, -⟩ := ih h'
          simp [hc] at hn
      | groupingFails _ h' => cases (ih h').1
      | groupingOpen _ h' _ =>
          obtain ⟨-, rfl, rfl⟩ := ih h'
          exact ⟨rfl, rfl, rfl⟩
      | noExpression hn => simp [ho] at hn
  | noExpression hn => cases h' <;> simp_all
  | terminated h hs ih =>
      cases h' with
      | terminated h' _ =>
          obtain ⟨⟨⟩, ⟨⟩, rfl⟩ := ih h'
          exact ⟨rfl, rfl, rfl⟩
      | terminatedFails h' => cases (ih h').1
      | noSemicolon h' hn =>
          obtain ⟨-, rfl, -⟩ := ih h'
          simp [hs] at hn
  | terminatedFails h ih =>
      cases h' with
      | terminated h' _ => cases (ih h').1
      | terminatedFails h' => exact ih h'
      | noSemicolon h' _ => cases (ih h').1
  | noSemicolon h hn ih =>
      cases h' with
      | terminated h' hs =>
          obtain ⟨-, rfl, -⟩ := ih h'
          simp [hs] at hn
      | terminatedFails h' => cases (ih h').1
      | noSemicolon h' _ =>
          obtain ⟨-, rfl, rfl⟩ := ih h'
          exact ⟨rfl, rfl, rfl⟩
  | condition ho h hc ih =>
      cases h' with
      | condition _ h' _ =>
          obtain ⟨⟨⟩, ⟨⟩, rfl⟩ := ih h'
          exact ⟨rfl, rfl, rfl⟩
      | noCondition hn => simp [ho] at hn
      | conditionFails _ h' => cases (ih h').1
      | conditionOpen _ h' hn =>
          obtain ⟨-, rfl, -⟩ := ih h'
          simp [hc] at hn
  | noCondition hn => cases h' <;> simp_all
  | conditionFails ho h ih =>
      cases h' with
      | condition _ h' _ => cases (ih h').1
      | noCondition hn => simp [ho] at hn
      | conditionFails _ h' => exact ih h'
      | conditionOpen _ h' _ => cases (ih h').1
  | conditionOpen ho h hn ih =>
      cases h' with
      | condition _ h' hc =>
          obtain ⟨-, rfl, -⟩ := ih h'
          simp [hc] at hn
      | noCondition hn => simp [ho] at hn
      | conditionFails _ h' => cases (ih h').1
      | conditionOpen _ h' _ =>
          obtain ⟨-, rfl, rfl⟩ := ih h'
          exact ⟨rfl, rfl, rfl⟩

/-- The rest of a run is a suffix of its tokens. -/
theorem ReadsExpr.suffix {r : ExprRule} {ts rest : List Token} {o : Except Expected Expr}
    {reports : List ParseError} (h : ReadsExpr r ts o rest reports) : rest <:+ ts := by
  induction h with
  | expression _ _ iht ih => exact ih.trans iht
  | level _ _ ihl ih => exact ih.trans ihl
  | chain _ _ _ ihr ih => exact (ih.trans ihr).trans (List.suffix_cons _ _)
  | noEquals | chainEnd | noExpression | noCondition => exact List.suffix_rfl
  | expressionFails _ ih | levelFails _ ih | tighter _ _ ih | tightest _ _ ih | primary _ _ ih
  | terminatedFails _ ih | noSemicolon _ _ ih => exact ih
  | assign _ _ ih | misassign _ _ _ ih | valueFails _ _ ih | chainFails _ _ ih | unary _ _ ih
  | unaryFails _ _ ih | groupingFails _ _ ih | groupingOpen _ _ _ ih | conditionFails _ _ ih
  | conditionOpen _ _ _ ih => exact ih.trans (List.suffix_cons _ _)
  | atom => exact List.suffix_cons _ _
  | grouping _ _ _ ih | condition _ _ _ ih =>
      exact ((List.suffix_cons _ _).trans ih).trans (List.suffix_cons _ _)
  | terminated _ _ ih => exact (List.suffix_cons _ _).trans ih

/-! ## Through the levels -/

/-- Where no unary expression can be read, no rule that starts with one gets any further. -/
theorem ReadsExpr.level_of_unary_fails {l : Level} {ts rest : List Token} {missing : Expected}
    {reports : List ParseError} (h : ReadsExpr .unary ts (.error missing) rest reports) :
    ReadsExpr (.level l) ts (.error missing) rest reports := by
  cases hm : l.tighter with
  | none => exact .levelFails (.tightest hm h)
  | some m => exact .levelFails (.tighter hm h.level_of_unary_fails)
termination_by l.rank
decreasing_by
  have := Level.rank_add_one_of_tighter hm
  omega

/-- A unary expression is an expression of every level that the next token does not continue. -/
theorem ReadsExpr.level_of_unary {l : Level} {ts rest : List Token} {e : Expr}
    {reports : List ParseError} (h : ReadsExpr .unary ts (.ok e) rest reports)
    (hn : ∀ m : Level, m.rank ≤ l.rank → nextIs m.joins rest = false) :
    ReadsExpr (.level l) ts (.ok e) rest reports := by
  have hend : ReadsExpr (.chain l e) rest (.ok e) rest [] := .chainEnd (hn l (Nat.le_refl _))
  rw [← List.append_nil reports]
  cases hm : l.tighter with
  | none => exact .level (.tightest hm h) hend
  | some m =>
      have hlt := Level.rank_add_one_of_tighter hm
      have hn' : ∀ k : Level, k.rank ≤ m.rank → nextIs k.joins rest = false :=
        fun k hk => hn k (by omega)
      exact .level (.tighter hm (h.level_of_unary hn')) hend
termination_by l.rank
decreasing_by omega

end Parse

end Lox
