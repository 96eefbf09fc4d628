import Lox.Proofs.Parse.Front
import Lox.Token.Stream

set_option autoImplicit false

/-! # A missing semicolon

Without the semicolon that ends it, a declaration in a program without faults is rejected at the
token behind the gap, or it goes on with a minus sign (`Unended.rejects`, `Unended.append_minus`).
What is reported in a block is reported in the program around it, and what the program around it
reports besides depends only on where the block stops (`Front.reads`). So the program has no other
fault if and only if the tokens where reading goes on are an ending for the blocks that are open at
the gap (`missingSemicolon_iff`).
-/

namespace Lox

namespace Parse

open Grammar

variable {eof : Token}

/-! ## A statement in a front -/

/-- A statement is accepted, or rejected if something is missing. -/
def Comes (eof : Token) : Option Expected → List Token → List Token → List ParseError → Prop
  | none, ts, rest, reports => ∃ s, ReadsStmts eof .statement ts (.ok [s]) rest reports
  | some missing, ts, rest, reports => ReadsStmts eof .statement ts (.error missing) rest reports

theorem exists_comes (eof : Token) (ts : List Token) :
    ∃ missing rest reports, Comes eof missing ts rest reports := by
  have h := (meets_stmtRules eof).2.1 ts
  cases hs : statement eof ts with
  | accept s rest reports =>
      rw [hs] at h
      exact ⟨none, rest, reports, s, h⟩
  | reject missing rest reports =>
      rw [hs] at h
      exact ⟨some missing, rest, reports, h⟩

/-- A statement that does not take an `else` is read whatever comes behind it. -/
theorem reads_of_closed {us : List Token} {s : Stmt} (hd : Statements .statement us [s] [])
    (hn : s.takesElse = false) (rest : List Token) :
    ReadsStmts eof .statement (us ++ rest) (.ok [s]) rest [] :=
  reads_of_statements hd rest fun _ => by simpa using hn

/-- A conditional whose first branch comes before an `else` is what its second branch is. -/
theorem Comes.ifElse {keyword other : Token} {ts us rest rest' : List Token} {c : Expr} {s : Stmt}
    {missing : Option Expected} {reports reports' : List ParseError} (hk : keyword.kind = .kwIf)
    (hc : ReadsExpr .condition ts (.ok c) us [])
    (h : ReadsStmts eof .statement us (.ok [s]) (other :: rest) reports)
    (hw : other.kind = .kwElse) (helse : Comes eof missing rest rest' reports') :
    Comes eof missing (keyword :: ts) rest' (reports ++ reports') := by
  cases missing with
  | none =>
      obtain ⟨t, helse⟩ := helse
      exact ⟨_, .ifElse hk hc h hw helse⟩
  | some missing => exact .elseFails hk hc h hw helse

/-- What comes after a statement in a block depends only on the rest of the statement. -/
theorem exists_later (eof : Token) (missing : Option Expected) (inBlock : Bool)
    (rest : List Token) :
    ∃ rest' later, ∀ t ts reports, startsDeclaration t.kind → t.kind ≠ .kwVar →
      Comes eof missing (t :: ts) rest reports →
      ∃ ss, ReadsStmts eof (.declarations inBlock) (t :: ts) (.ok ss) rest' (reports ++ later) := by
  have hdeclarations : ∀ ts, ∃ ss rest reports,
      ReadsStmts eof (.declarations inBlock) ts (.ok ss) rest reports :=
    fun ts => ⟨_, _, _, reads_declarations eof inBlock ts⟩
  cases missing with
  | none =>
      obtain ⟨ss, rest', later, hrest⟩ := hdeclarations rest
      refine ⟨rest', later, fun t ts reports ht hv ⟨s, h⟩ => ⟨s :: ss, ?_⟩⟩
      exact .kept (stops_eq_false_of_startsDeclaration ht inBlock ts)
        (.statement (by simpa using hv) h) hrest
  | some missing =>
      obtain ⟨ss, rest', later, hrest⟩ := hdeclarations (resume rest)
      refine ⟨rest', ⟨rest.headD eof, .missing missing⟩ :: later,
        fun t ts reports ht hv h => ⟨ss, ?_⟩⟩
      have hdropped := ReadsStmts.dropped (stops_eq_false_of_startsDeclaration ht inBlock ts)
        (.statement (by simpa using hv) h) hrest
      rwa [List.append_assoc] at hdropped

end Parse

namespace Grammar

open Parse

variable {eof : Token}

/-- A branch that is rejected is all that its conditionals come to. -/
theorem Heads.rejects {n : Nat} {hs ts rest : List Token} {missing : Expected}
    {reports : List ParseError} (hh : Heads n hs)
    (h : ReadsStmts eof .statement ts (.error missing) rest reports) :
    ReadsStmts eof .statement (hs ++ ts) (.error missing) rest reports := by
  induction hh generalizing ts with
  | nil => exact h
  | ifThen _ hk ho hv hc ih =>
      have hif := ReadsStmts.thenFails hk (reads_condition ho hv hc ts) h
      simpa using ih hif
  | ifElse _ hk ho hv hc hd hn hw ih =>
      have hif := ReadsStmts.elseFails hk (reads_condition ho hv hc _)
        (reads_of_closed hd hn (_ :: ts)) hw h
      simpa using ih hif

/-- Behind a branch that is accepted, it depends only on the rest what its conditionals come to. -/
theorem Heads.accepts {n : Nat} {hs : List Token} (hh : Heads n hs) (rest : List Token) :
    ∃ missing rest' later, ∀ ts reports, Comes eof none ts rest reports →
      Comes eof missing (hs ++ ts) rest' (reports ++ later) := by
  induction hh generalizing rest with
  | nil => exact ⟨none, rest, [], fun ts reports h => by rwa [List.append_nil]⟩
  | @ifThen keyword opening closing hs cs c _ hh hk ho hv hc ih =>
      cases hw : nextIs (· = .kwElse) rest with
      | false =>
          obtain ⟨missing, rest', later, hlater⟩ := ih rest
          refine ⟨missing, rest', later, fun ts reports h => ?_⟩
          obtain ⟨s, h⟩ := h
          have hif := ReadsStmts.ifThen hk (reads_condition ho hv hc ts) h hw
          simpa using hlater _ reports ⟨_, hif⟩
      | true =>
          -- the conditional takes the `else`, and its second branch decides
          obtain ⟨other, rest, rfl⟩ := List.exists_cons_of_ne_nil (l := rest)
            (by rintro rfl; cases hw)
          rw [nextIs_cons, decide_eq_true_eq] at hw
          obtain ⟨missing, rest', helse, h'⟩ := exists_comes eof rest
          have hif : ∀ ts reports, Comes eof none ts (other :: rest) reports →
              Comes eof missing (keyword :: opening :: (cs ++ closing :: ts)) rest'
                (reports ++ helse) := by
            intro ts reports ⟨s, h⟩
            exact .ifElse hk (reads_condition ho hv hc ts) h hw h'
          cases missing with
          | none =>
              obtain ⟨missing, rest'', later, hlater⟩ := ih rest'
              refine ⟨missing, rest'', helse ++ later, fun ts reports h => ?_⟩
              simpa using hlater _ _ (hif ts reports h)
          | some missing =>
              refine ⟨some missing, rest', helse, fun ts reports h => ?_⟩
              have hrejects := hh.rejects (hif ts reports h)
              rwa [List.append_assoc, List.cons_append, List.cons_append, List.append_assoc,
                List.singleton_append]
  | ifElse _ hk ho hv hc hd hn hw ih =>
      obtain ⟨missing, rest', later, hlater⟩ := ih rest
      refine ⟨missing, rest', later, fun ts reports h => ?_⟩
      have hif := Comes.ifElse hk (reads_condition ho hv hc _)
        (reads_of_closed hd hn (_ :: ts)) hw h
      simpa using hlater _ _ hif

/-- A conditional starts a statement, as its branch does. -/
theorem Heads.first {n : Nat} {hs : List Token} {t : Token} (hh : Heads n hs)
    (ht : startsDeclaration t.kind) (hv : t.kind ≠ .kwVar) (us : List Token) :
    ∃ t' us', hs ++ t :: us = t' :: us' ∧ startsDeclaration t'.kind ∧ t'.kind ≠ .kwVar := by
  induction hh generalizing t us with
  | nil => exact ⟨t, us, rfl, ht, hv⟩
  | ifThen _ hk _ _ _ ih =>
      simpa using ih (by rw [hk]; rfl) (by simp [hk]) _
  | ifElse _ hk _ _ _ _ _ _ ih =>
      simpa using ih (by rw [hk]; rfl) (by simp [hk]) _

/-- A declaration that is a statement is rejected with its branch. -/
theorem Heads.rejects_declaration {n : Nat} {hs us rest : List Token} {t : Token}
    {missing : Expected} {reports : List ParseError} (hh : Heads n hs)
    (ht : startsDeclaration t.kind) (hv : t.kind ≠ .kwVar)
    (h : ReadsStmts eof .statement (t :: us) (.error missing) rest reports) :
    ReadsStmts eof .declaration (hs ++ t :: us) (.error missing) rest reports := by
  obtain ⟨t', us', hts, -, hv'⟩ := hh.first ht hv us
  exact .statement (by simpa [hts] using hv') (hh.rejects h)

/-- It depends only on where a block stops what the conditionals in front of it come to. -/
theorem Heads.readsBlock {n : Nat} {hs ds : List Token} {opening : Token} {ss : List Stmt}
    (hh : Heads n hs) (ho : opening.kind = .leftBrace) (hd : Statements .declarations ds ss [])
    (rest : List Token) :
    ∃ missing rest' later, ∀ ts ss reports, nextIs (· = .kwElse) ts = false →
      ReadsStmts eof (.declarations true) ts (.ok ss) rest reports →
      Comes eof missing (hs ++ opening :: (ds ++ ts)) rest' (reports ++ later) := by
  cases rest with
  | nil =>
      refine ⟨some .braceAfterBlock, [], [], fun ts ss reports hn h => ?_⟩
      rw [List.append_nil]
      exact hh.rejects (.blockOpen ho (reads_of_statements hd true ts _ _ _ hn h))
  | cons closing rest =>
      obtain ⟨missing, rest', later, hlater⟩ := hh.accepts rest
      refine ⟨missing, rest', later, fun ts ss reports hn h => hlater _ reports ?_⟩
      have hstops := h.stops_rest
      rw [stops_cons, Bool.true_and, decide_eq_true_eq] at hstops
      exact ⟨_, .block ho (reads_of_statements hd true ts _ _ _ hn h) hstops⟩

/-- What is reported in a block is reported in the program around it, and what is reported besides
depends only on where the block stops. -/
theorem Front.reads {ifs : List Nat} {fs : List Token} (hf : Front ifs fs) (rest : List Token) :
    ∃ later, ∀ ts ss reports, nextIs (· = .kwElse) ts = false →
      ReadsStmts eof (.declarations (!ifs.isEmpty)) ts (.ok ss) rest reports →
      ∃ ss', ReadsStmts eof (.declarations false) (fs ++ ts) (.ok ss') [] (reports ++ later) := by
  induction hf generalizing rest with
  | top hd =>
      refine ⟨[], fun ts ss reports hn h => ?_⟩
      obtain rfl : rest = [] := by
        have hstops := h.stops_rest
        cases rest with
        | nil => rfl
        | cons t rest => simp at hstops
      rw [List.append_nil]
      exact ⟨_, reads_of_statements hd false ts _ _ _ hn h⟩
  | @block opening fs hs ds _ n ifs _ hh ho hd ih =>
      -- first the statement that the block is in, then what is behind it in the block around it
      obtain ⟨missing, rest', later, hlater⟩ := hh.readsBlock ho hd rest
      obtain ⟨rest'', later', hlater'⟩ := exists_later eof missing (!ifs.isEmpty) rest'
      obtain ⟨later'', hlater''⟩ := ih rest''
      refine ⟨later ++ later' ++ later'', fun ts ss reports hn h => ?_⟩
      obtain ⟨t, us, hts, ht, hv⟩ := hh.first (by rw [ho]; rfl) (by simp [ho]) (ds ++ ts)
      have hcomes := hlater ts ss reports hn h
      rw [hts] at hcomes
      obtain ⟨ss', hrun⟩ := hlater' t us _ ht hv hcomes
      have hn' : nextIs (· = .kwElse) (t :: us) = false := ne_kwElse_of_startsDeclaration _ ht
      obtain ⟨ss'', hrun'⟩ := hlater'' _ _ _ hn' hrun
      rw [← hts] at hrun'
      exact ⟨ss'', by simpa using hrun'⟩

/-! ## The gap -/

theorem startsDeclaration_of_startsExpr {k : Token.Kind} (h : startsExpr k) :
    startsDeclaration k ∧ k ≠ .kwVar ∧ opensStatement k = false := by
  revert h
  cases k <;> decide

/-- Behind a gap, there is no semicolon and no equals sign, and an expression goes on with a minus
sign or not at all. -/
theorem Ending.gap {n : Nat} {ifs : List Nat} {ts : List Token} (h : Ending .behind (n :: ifs) ts) :
    nextIs (· = .semicolon) ts = false ∧ nextIs (· = .equal) ts = false ∧
      (nextIs (· = .minus) ts = false → nextIs continuesExpr ts = false) := by
  cases ts with
  | nil => exact ⟨rfl, rfl, fun _ => rfl⟩
  | cons t ts =>
      have hk := h.head
      simp only [nextIs_cons]
      revert hk
      cases t.kind <;> decide

/-- An expression that does not go on lacks its semicolon. -/
theorem Expression.rejects {us ts : List Token} {e : Expr}
    (hv : Expression .expression us e []) (hc : nextIs continuesExpr ts = false)
    (hs : nextIs (· = .semicolon) ts = false) (missing : Expected) :
    ReadsExpr (.terminated missing) (us ++ ts) (.error missing) ts [] :=
  .noSemicolon (reads_of_expression hv ts hc) hs

theorem Unended.first {n : Nat} {us : List Token} (h : Unended n us) :
    ∃ t us', us = t :: us' ∧ startsDeclaration t.kind := by
  cases h with
  | declare hk | declareValue hk => exact ⟨_, _, rfl, by rw [hk]; rfl⟩
  | expression hh hv =>
      obtain ⟨t, us, rfl, ht⟩ := hv.first
      obtain ⟨ht, hv, -⟩ := startsDeclaration_of_startsExpr ht
      obtain ⟨t, us, hts, ht, -⟩ := hh.first ht hv us
      exact ⟨t, us, hts, ht⟩
  | print hh hk =>
      obtain ⟨t, us, hts, ht, -⟩ := hh.first (by rw [hk]; rfl) (by simp [hk]) _
      exact ⟨t, us, hts, ht⟩

/-- A declaration that does not go on without its semicolon is rejected there, and nothing else is
reported in it. -/
theorem Unended.rejects {n : Nat} {us ts : List Token} (h : Unended n us)
    (hc : nextIs continuesExpr ts = false) (hs : nextIs (· = .semicolon) ts = false) :
    ∃ missing, ReadsStmts eof .declaration (us ++ ts) (.error missing) ts [] := by
  cases h with
  | declare hk hn => exact ⟨_, .noValue hk hn (nextIs_equal_eq_false hc) hs⟩
  | declareValue hk hn he hv => exact ⟨_, .valueFails hk hn he (hv.rejects hc hs _)⟩
  | expression hh hv =>
      have hread := hv.rejects hc hs .semicolonAfterExpression
      obtain ⟨t, us, rfl, ht⟩ := hv.first
      obtain ⟨ht, hvar, hopens⟩ := startsDeclaration_of_startsExpr ht
      rw [List.append_assoc]
      exact ⟨_, hh.rejects_declaration ht hvar (.expressionFails (by simpa using hopens) hread)⟩
  | print hh hk hv =>
      have hread := hv.rejects hc hs .semicolonAfterValue
      rw [List.append_assoc]
      exact ⟨_, hh.rejects_declaration (by rw [hk]; rfl) (by simp [hk]) (.printFails hk hread)⟩

/-! ## An `else` that is left -/

/-- Declarations that start with an `else` are not read without a fault. -/
theorem reports_ne_nil_of_else {ts rest : List Token} {inBlock : Bool} {ss : List Stmt}
    {reports : List ParseError} (hw : nextIs (· = .kwElse) ts)
    (hread : ReadsStmts eof (.declarations inBlock) ts (.ok ss) rest reports) : reports ≠ [] := by
  rintro rfl
  obtain ⟨us, rfl, vs, bad, -, hd, hall⟩ := hread.derives
  obtain ⟨rfl, -⟩ := hall (by simp)
  have hno : nextIs (· = .kwElse) rest = false := by
    have hstops := hread.stops_rest
    cases rest with
    | nil => rfl
    | cons t rest =>
        rw [stops_cons, Bool.and_eq_true, decide_eq_true_eq] at hstops
        rw [nextIs_cons, hstops.2]
        rfl
  rw [hd.nextIs_append ne_kwElse_of_startsDeclaration hno] at hw
  cases hw

/-- Tokens that leave an `else` are not read without a fault. -/
theorem LeavesElse.reports_ne_nil {ts rest : List Token} {inBlock : Bool} {ss : List Stmt}
    {reports : List ParseError} (h : LeavesElse ts)
    (hread : ReadsStmts eof (.declarations inBlock) ts (.ok ss) rest reports) : reports ≠ [] := by
  rcases h with hw | ⟨us, s, other, behind, rfl, hd, hn, hw⟩
  · exact reports_ne_nil_of_else hw hread
  · rintro rfl
    have hbehind := reads_declarations eof inBlock (other :: behind)
    have hstatement : ReadsStmts eof .statement (us ++ other :: behind) (.ok [s])
        (other :: behind) [] := reads_of_closed hd hn (other :: behind)
    obtain ⟨t, us, rfl, ht, hv⟩ := hd.first (by simp)
    have hkept := ReadsStmts.kept (stops_eq_false_of_startsDeclaration ht inBlock _)
      (.statement (by simpa using hv rfl) hstatement) hbehind
    obtain ⟨-, -, hreports⟩ := hread.unique hkept
    exact reports_ne_nil_of_else (by simpa using hw) hbehind hreports.symm

/-- What may be left in front of declarations leaves no `else`. -/
theorem Ending.not_leavesElse {ifs : List Nat} {ts : List Token}
    (h : Ending .declarations ifs ts) : ¬ LeavesElse ts := by
  obtain ⟨us, ss, rest, rfl, hd, hend⟩ := (Ending.split _).2 ifs ts (Nat.lt_succ_self _) h
  obtain ⟨inBlock, hstops, hn⟩ : ∃ inBlock, stops inBlock rest ∧
      nextIs (· = .kwElse) rest = false := by
    rcases hend with ⟨rfl, -⟩ | ⟨closing, rest, rfl, hc, -⟩
    · exact ⟨false, rfl, rfl⟩
    · exact ⟨true, by simp [hc], by simp [hc]⟩
  intro hleaves
  have hread : ReadsStmts (Token.endOn 1) (.declarations inBlock) (us ++ rest) (.ok (ss ++ [])) rest
      [] := reads_of_statements hd inBlock rest _ _ _ hn (.nothing hstops)
  exact hleaves.reports_ne_nil hread rfl

/-! ## Where reading goes on -/

/-- A front opens the blocks that are open behind it. -/
theorem Front.braces {ifs : List Nat} {fs ts : List Token} (hf : Front ifs fs)
    (h : Ending .declarations ifs ts) : opened fs = closed fs + ifs.length := by
  have hcount := h.braces
  have hcount' := (hf.ending h).braces
  simp only [Place.extra, opened_append, closed_append, List.length_nil] at hcount hcount'
  omega

/-- The tokens that are passed over after a fault at the first of them. -/
def passedOver (ts : List Token) : List Token := ts.take (ts.length - (resume ts).length)

theorem passedOver_append_resume (ts : List Token) : passedOver ts ++ resume ts = ts :=
  List.suffix_iff_eq_append.mp (resume_suffix ts)

/-- Reading goes on in the block it was in: the tokens passed over open as many blocks as they
close, and no `else` is left. -/
def Recovers (ts : List Token) : Prop :=
  opened (passedOver ts) = closed (passedOver ts) ∧ ¬ LeavesElse (resume ts)

/-- Reading goes on in the block it was in if it goes on with declarations of the program. -/
theorem recovers_iff {n : Nat} {ifs : List Nat} {fs us bs : List Token} {semicolon : Token}
    (hf : Front ifs fs) (hu : Unended n us) (hs : semicolon.kind = .semicolon)
    (h : Ending .behind (n :: ifs) bs) :
    Recovers bs ↔ ¬ LeavesElse (resume bs) ∧ ∃ ss, Strict (fs ++ resume bs) ss := by
  have hpassed := passedOver_append_resume bs
  constructor
  · rintro ⟨hbraces, hleaves⟩
    exact ⟨hleaves, (hf.ending (h.recovers hpassed.symm hbraces hleaves)).strict⟩
  · rintro ⟨hleaves, ss, hd⟩
    refine ⟨?_, hleaves⟩
    have hending := hd.precedes rfl [] [] .nil
    rw [List.append_nil] at hending
    have hcount := hending.braces
    have hcount' := h.braces
    have hfront := hf.braces (hu.ending hs h)
    rw [← hpassed] at hcount'
    simp only [Place.extra, opened_append, closed_append, List.length_cons, List.length_nil]
      at hcount hcount'
    omega

/-- If the declaration is rejected at the gap, no other fault follows if and only if reading goes on
in the block it was in. -/
theorem Unended.length_le_one_iff {n : Nat} {ifs : List Nat} {fs us bs : List Token}
    {semicolon : Token} {missing : Expected} {ss : List Stmt} {reports : List ParseError}
    (hu : Unended n us) (hf : Front ifs fs) (hs : semicolon.kind = .semicolon)
    (h : Ending .behind (n :: ifs) bs)
    (hrejects : ReadsStmts eof .declaration (us ++ bs) (.error missing) bs [])
    (hread : ReadsStmts eof (.declarations false) (fs ++ (us ++ bs)) (.ok ss) [] reports) :
    reports.length ≤ 1 ↔ Recovers bs := by
  rw [recovers_iff hf hu hs h]
  obtain ⟨t, us, rfl, ht⟩ := hu.first
  -- what is reported is the fault, what is read in the block behind it, and what comes later
  obtain ⟨ss', rest, behind, hbehind⟩ : ∃ ss rest behind,
      ReadsStmts eof (.declarations (!ifs.isEmpty)) (resume bs) (.ok ss) rest behind :=
    ⟨_, _, _, reads_declarations eof _ (resume bs)⟩
  have hdropped := ReadsStmts.dropped (stops_eq_false_of_startsDeclaration ht _ (us ++ bs)) hrejects
    hbehind
  obtain ⟨later, hlater⟩ := hf.reads rest
  have hfirst : nextIs (· = .kwElse) (t :: (us ++ bs)) = false :=
    ne_kwElse_of_startsDeclaration _ ht
  obtain ⟨ss'', hall⟩ := hlater _ _ _ hfirst hdropped
  obtain ⟨-, -, rfl⟩ := hread.unique hall
  have hnone (fault : ParseError) :
      ([] ++ [fault] ++ behind ++ later).length ≤ 1 ↔ behind = [] ∧ later = [] := by simp
  rw [hnone]
  -- the same is reported, but for the fault, where reading goes on with declarations
  have hgoes : ¬ LeavesElse (resume bs) → ∃ ss,
      ReadsStmts eof (.declarations false) (fs ++ resume bs) (.ok ss) [] (behind ++ later) :=
    fun hleaves => hlater _ _ _ (by simpa using fun hw => hleaves (.inl hw)) hbehind
  constructor
  · rintro ⟨rfl, rfl⟩
    have hleaves : ¬ LeavesElse (resume bs) := fun hl => hl.reports_ne_nil hbehind rfl
    obtain ⟨ss, hstrict⟩ := hgoes hleaves
    exact ⟨hleaves, ss, reads_strict_iff.mp hstrict⟩
  · rintro ⟨hleaves, ss, hd⟩
    obtain ⟨ss', hstrict⟩ := hgoes hleaves
    obtain ⟨-, -, hreports⟩ := hstrict.unique (reads_strict_iff.mpr hd)
    simpa using hreports

/-- If the declaration goes on with a minus sign, the program has no fault without the semicolon,
and after a fault reading would go on in the block it was in. -/
theorem Unended.merges {n : Nat} {ifs : List Nat} {fs us vs rest : List Token} {e : Expr}
    {semicolon semicolon' : Token} (hu : Unended n us) (hu' : Unended n (us ++ vs))
    (hf : Front ifs fs) (hs : semicolon.kind = .semicolon) (hv : Expression .expression vs e [])
    (hs' : semicolon'.kind = .semicolon) (h : Ending .declarations ifs rest) :
    (∃ ss, Strict (fs ++ (us ++ (vs ++ semicolon' :: rest))) ss) ∧
      Recovers (vs ++ semicolon' :: rest) := by
  have hlonger : Ending .declarations ifs (us ++ vs ++ semicolon' :: rest) :=
    hu'.ending hs' (.next h)
  rw [List.append_assoc] at hlonger
  have hexpression : Ending .declarations ifs (vs ++ semicolon' :: rest) :=
    .first (.expression hv hs' (.next h))
  refine ⟨(hf.ending hlonger).strict, (recovers_iff hf hu hs (.next hexpression)).mpr ?_⟩
  rw [resume_semicolon (ne_semicolon_of_mem hv)
    (fun t ht => startsStatement_eq_false_of_mem hv t (List.mem_of_mem_tail ht)) hs']
  exact ⟨h.not_leavesElse, (hf.ending h).strict⟩

end Grammar

namespace Program

open Parse Grammar

/-- **A missing semicolon.** Without one of its semicolons, a program without faults has at most one
fault if and only if reading goes on behind the gap in the block that is open there: the tokens
passed over open as many blocks as they close, and no `else` is left behind them. -/
theorem missingSemicolon_iff {ts us : List Token} {semicolon : Token}
    (hts : ∀ t ∈ ts, t.kind ≠ .eof) (hs : semicolon.kind = .semicolon)
    (h : (ofTokens (ts ++ semicolon :: us)).errors = []) :
    (ofTokens (ts ++ us)).errors.length ≤ 1 ↔ Recovers (body us) := by
  have hbody : body (ts ++ semicolon :: us) = ts ++ semicolon :: body us := by
    rw [body_append hts]
    simp [body, hs]
  have hstrict : Strict (ts ++ semicolon :: body us)
      (ofTokens (ts ++ semicolon :: us)).statements := by
    rw [← ofTokens_eq_iff_strict hbody, ← h]
  have hread := reads_ofTokens (ts ++ us)
  rw [body_append hts] at hread
  generalize ofTokens (ts ++ us) = p at hread ⊢
  obtain ⟨n, ifs, fs, ds, hcut, hf, hu, hending⟩ := hstrict.cutAt hs
  simp only [hcut, List.append_assoc] at hread
  obtain ⟨hsemicolon, hequal, hcontinues⟩ := hending.gap
  cases hm : nextIs (· = .minus) (body us) with
  | false =>
      obtain ⟨missing, hrejects⟩ := hu.rejects (hcontinues hm) hsemicolon
      exact hu.length_le_one_iff hf hs hending hrejects hread
  | true =>
      obtain ⟨vs, e, semicolon', rest, hvs, hv, hm, hs', hrest⟩ := hending.split_minus hm
      rcases hu.append_minus hv hm with ⟨keyword, name, rfl, hk, hn⟩ | hu'
      · -- a variable without a value does not go on
        exact hu.length_le_one_iff hf hs hending (.noValue hk hn hequal hsemicolon) hread
      · obtain ⟨⟨ss, hd⟩, hrecovers⟩ := hu.merges hu' hf hs hv hs' hrest
        rw [← hvs] at hd hrecovers
        obtain ⟨-, -, herrors⟩ := hread.unique (reads_strict_iff.mpr hd)
        rw [herrors]
        simp [hrecovers]

/-- The tokens of `{ print a` and of `print b; }`. -/
def gapInBlock : List Token × List Token :=
  ([word .leftBrace "\x7b", word .kwPrint "print", word .identifier "a"],
   [word .kwPrint "print", word .identifier "b", word .semicolon ";", word .rightBrace "\x7d",
    Token.endOn 1])

/-- In front of another statement of the block, a missing semicolon is one fault. -/
theorem missingSemicolon_gapInBlock :
    (∀ t ∈ gapInBlock.1, t.kind ≠ .eof) ∧ (word .semicolon ";").kind = .semicolon ∧
      (ofTokens (gapInBlock.1 ++ word .semicolon ";" :: gapInBlock.2)).errors = [] ∧
      (ofTokens (gapInBlock.1 ++ gapInBlock.2)).errors.length = 1 ∧
      Recovers (body gapInBlock.2) := by
  have hts : ∀ t ∈ gapInBlock.1, t.kind ≠ .eof := by decide
  have herrors : (ofTokens (gapInBlock.1 ++ word .semicolon ";" :: gapInBlock.2)).errors = [] := by
    decide +kernel
  have hone : (ofTokens (gapInBlock.1 ++ gapInBlock.2)).errors.length = 1 := by decide +kernel
  exact ⟨hts, rfl, herrors, hone, (missingSemicolon_iff hts rfl herrors).mp (by rw [hone])⟩

/-- In front of the end of the block, it is two: the brace is passed over. -/
theorem missingSemicolon_cascades :
    (ofTokens [word .leftBrace "\x7b", word .kwPrint "print", word .identifier "a",
      word .rightBrace "\x7d", Token.endOn 1]).errors =
        [⟨word .rightBrace "\x7d", .missing .semicolonAfterValue⟩,
         ⟨Token.endOn 1, .missing .braceAfterBlock⟩] ∧
    ¬ ∀ source ts us semicolon, (Scan.ofString source).tokens = ts ++ semicolon :: us →
      semicolon.kind = .semicolon → (ofTokens (Scan.ofString source).tokens).errors = [] →
      (ofTokens (ts ++ us)).errors.length ≤ 1 := by
  have herrors : (ofTokens [word .leftBrace "\x7b", word .kwPrint "print", word .identifier "a",
      word .rightBrace "\x7d", Token.endOn 1]).errors =
        [⟨word .rightBrace "\x7d", .missing .semicolonAfterValue⟩,
         ⟨Token.endOn 1, .missing .braceAfterBlock⟩] := by decide +kernel
  refine ⟨herrors, fun h => ?_⟩
  have hone := h "\x7b print a; \x7d"
    [word .leftBrace "\x7b", word .kwPrint "print", word .identifier "a"]
    [word .rightBrace "\x7d", Token.endOn 1] (word .semicolon ";") (by decide +kernel) rfl
    (by decide +kernel)
  rw [List.cons_append, List.cons_append, List.singleton_append, herrors] at hone
  exact absurd hone (by decide)

end Program

end Lox
