import Mathlib.Tactic
import Lox.Proofs.Parse.Tree

set_option autoImplicit false

/-! # Reading other tokens in the same places

Reading looks at the kinds and literals of tokens only. From other tokens of the same kinds and
literals, in the same places, it makes the same program with these tokens in it
(`Program.ofTokens_map`): the same trees, and the same faults, blamed on the tokens that are now in
the place of the blamed ones. It follows that all tokens in a program are among those it was read
from (`Program.mem_of_mem_tokens`), and that a program is one of places, filled with the tokens that
stand there (`Program.ofTokens_placed`).
-/

namespace Lox

/-! ## Trees with other tokens in them -/

/-- The expression with other tokens in it. -/
def Expr.mapTokens (f : Token → Token) : Expr → Expr
  | literal value => literal value
  | grouping inner => grouping (inner.mapTokens f)
  | unary operator operand => unary (f operator) (operand.mapTokens f)
  | binary left operator right => binary (left.mapTokens f) (f operator) (right.mapTokens f)
  | logical left operator right => logical (left.mapTokens f) (f operator) (right.mapTokens f)
  | var name => var (f name)
  | assign name value => assign (f name) (value.mapTokens f)

namespace Stmt

mutual

/-- The statement with other tokens in it. -/
def mapTokens (f : Token → Token) : Stmt → Stmt
  | expression e => expression (e.mapTokens f)
  | print e => print (e.mapTokens f)
  | declare name initializer => declare (f name) (initializer.map (Expr.mapTokens f))
  | block body => block (mapTokensAll f body)
  | ifThen condition thenBranch => ifThen (condition.mapTokens f) (thenBranch.mapTokens f)
  | ifElse condition thenBranch elseBranch =>
    ifElse (condition.mapTokens f) (thenBranch.mapTokens f) (elseBranch.mapTokens f)

/-- The statements with other tokens in them. -/
def mapTokensAll (f : Token → Token) : List Stmt → List Stmt
  | [] => []
  | s :: ss => s.mapTokens f :: mapTokensAll f ss

end

end Stmt

/-- The fault with another token blamed. -/
def ParseError.mapToken (f : Token → Token) (e : ParseError) : ParseError := ⟨f e.token, e.cause⟩

namespace Program

/-- The program with other tokens in it. -/
def mapTokens (f : Token → Token) (p : Program) : Program :=
  ⟨Stmt.mapTokensAll f p.statements, p.errors.map (ParseError.mapToken f)⟩

/-- The names and operators in a program, and the tokens blamed for its faults. -/
def tokens (p : Program) : List Token :=
  Stmt.storedAll p.statements ++ p.errors.map ParseError.token

end Program

/-! ## Which tokens are in a tree

Two maps put the same tokens into a tree if and only if they agree on the tokens in it. -/

section Agree

variable {f g : Token → Token}

theorem Expr.mapTokens_inj (e : Expr) :
    e.mapTokens f = e.mapTokens g ↔ ∀ t ∈ e.stored, f t = g t := by
  induction e with
  | literal => simp [mapTokens, stored]
  | grouping _ ih => simp [mapTokens, stored, ih]
  | unary _ _ ih => simp [mapTokens, stored, ih]
  | binary _ _ _ ihl ihr | logical _ _ _ ihl ihr =>
      simp [mapTokens, stored, ihl, ihr, or_imp, forall_and]
  | var => simp [mapTokens, stored]
  | assign _ _ ih => simp [mapTokens, stored, ih]

mutual

theorem Stmt.mapTokens_inj (s : Stmt) :
    s.mapTokens f = s.mapTokens g ↔ ∀ t ∈ s.stored, f t = g t := by
  cases s with
  | expression e => simp [mapTokens, stored, e.mapTokens_inj]
  | print e => simp [mapTokens, stored, e.mapTokens_inj]
  | declare name initializer =>
      cases initializer with
      | none => simp [mapTokens, stored]
      | some e => simp [mapTokens, stored, e.mapTokens_inj]
  | block body => simp [mapTokens, stored, mapTokensAll_inj body]
  | ifThen c s =>
      simp [mapTokens, stored, c.mapTokens_inj, mapTokens_inj s, or_imp, forall_and]
  | ifElse c s t =>
      simp [mapTokens, stored, c.mapTokens_inj, mapTokens_inj s, mapTokens_inj t,
        or_imp, forall_and]

theorem Stmt.mapTokensAll_inj (ss : List Stmt) :
    mapTokensAll f ss = mapTokensAll g ss ↔ ∀ t ∈ storedAll ss, f t = g t := by
  cases ss with
  | nil => simp [mapTokensAll, storedAll]
  | cons s ss =>
      simp [mapTokensAll, storedAll, mapTokens_inj s, mapTokensAll_inj ss, or_imp, forall_and]

end

theorem Program.mapTokens_inj (p : Program) :
    p.mapTokens f = p.mapTokens g ↔ ∀ t ∈ p.tokens, f t = g t := by
  simp [mapTokens, tokens, Stmt.mapTokensAll_inj, ParseError.mapToken, or_imp, forall_and]

end Agree

theorem Expr.mapTokens_id (e : Expr) : e.mapTokens id = e := by
  induction e with
  | literal | var => rfl
  | grouping _ ih => rw [mapTokens, ih]
  | unary _ _ ih | assign _ _ ih => rw [mapTokens, ih, id]
  | binary _ _ _ ihl ihr | logical _ _ _ ihl ihr => rw [mapTokens, ihl, ihr, id]

mutual

theorem Stmt.mapTokens_id (s : Stmt) : s.mapTokens id = s := by
  cases s with
  | expression e => rw [mapTokens, e.mapTokens_id]
  | print e => rw [mapTokens, e.mapTokens_id]
  | declare name initializer =>
      cases initializer with
      | none => rfl
      | some e => rw [mapTokens, Option.map_some, e.mapTokens_id, id]
  | block body => rw [mapTokens, mapTokensAll_id body]
  | ifThen c s => rw [mapTokens, c.mapTokens_id, mapTokens_id s]
  | ifElse c s t => rw [mapTokens, c.mapTokens_id, mapTokens_id s, mapTokens_id t]

theorem Stmt.mapTokensAll_id (ss : List Stmt) : mapTokensAll id ss = ss := by
  cases ss with
  | nil => rfl
  | cons s ss => rw [mapTokensAll, mapTokens_id s, mapTokensAll_id ss]

end

theorem Program.mapTokens_id (p : Program) : p.mapTokens id = p := by
  have herrors : ParseError.mapToken id = id := rfl
  rw [mapTokens, Stmt.mapTokensAll_id, herrors, List.map_id]

/-! ## Runs of the rules -/

namespace Parse

open Grammar

section Runs

variable {f : Token → Token}

theorem isName_mapTokens (e : Expr) : (e.mapTokens f).isName = e.isName := by
  cases e <;> rfl

theorem mapTokens_node (l : Level) (left right : Expr) (operator : Token) :
    (l.node left operator right).mapTokens f =
      l.node (left.mapTokens f) (f operator) (right.mapTokens f) := by
  cases l <;> rfl

/-- The rule with other tokens in what it goes on after. -/
def ExprRule.mapTokens (f : Token → Token) : ExprRule → ExprRule
  | assignment target => assignment (target.mapTokens f)
  | chain l left => chain l (left.mapTokens f)
  | r => r

/-- The demand, or the statements with other tokens in them. -/
def mapRead (f : Token → Token) : Except Expected (List Stmt) → Except Expected (List Stmt) :=
  Except.map (Stmt.mapTokensAll f)

variable (hk : ∀ t, (f t).kind = t.kind)

include hk

theorem nextIs_map (p : Token.Kind → Bool) (ts : List Token) :
    nextIs p (ts.map f) = nextIs p ts := by
  cases ts with
  | nil => rfl
  | cons t ts => exact congrArg p (hk t)

theorem stops_map (inBlock : Bool) (ts : List Token) :
    stops inBlock (ts.map f) = stops inBlock ts := by
  cases ts with
  | nil => rfl
  | cons t ts => rw [List.map_cons, stops_cons, stops_cons, hk]

theorem resume_map (ts : List Token) : resume (ts.map f) = (resume ts).map f := by
  induction ts with
  | nil => rfl
  | cons t ts ih =>
      have hnext : (∃ u ∈ (ts.map f).head?, u.kind.startsStatement) ↔
          ∃ u ∈ ts.head?, u.kind.startsStatement := by
        cases ts with
        | nil => rfl
        | cons u us => simp [hk]
      rw [List.map_cons, resume, resume, hk, ih]
      simp only [hnext]
      split
      · rfl
      · rfl

variable (hl : ∀ t, (f t).literal = t.literal)

include hl

theorem atom?_map (t : Token) : (f t).atom? = t.atom?.map (Expr.mapTokens f) := by
  rw [Token.atom?, Token.atom?, hk, hl]
  cases t.kind with
  | number | string => cases t.literal <;> rfl
  | _ => rfl

/-- A run on other tokens of the same kinds and literals goes the same way. -/
theorem ReadsExpr.mapTokens {r : ExprRule} {ts rest : List Token} {o : Except Expected Expr}
    {reports : List ParseError} (h : ReadsExpr r ts o rest reports) :
    ReadsExpr (r.mapTokens f) (ts.map f) (o.map (Expr.mapTokens f)) (rest.map f)
      (reports.map (ParseError.mapToken f)) := by
  -- a rule looks at the kind of the next token, and at the token itself only if it is an atom
  induction h with
  | expression _ _ iht ih =>
      rw [List.map_append]
      exact .expression iht ih
  | expressionFails _ ih => exact .expressionFails ih
  | noEquals hn => exact .noEquals ((nextIs_map hk _ _).trans hn)
  | assign he _ ih => exact .assign ((hk _).trans he) ih
  | misassign he hn _ ih =>
      rw [List.map_append]
      exact .misassign ((hk _).trans he) ((isName_mapTokens _).trans hn) ih
  | valueFails he _ ih => exact .valueFails ((hk _).trans he) ih
  | level _ _ ihl ih =>
      rw [List.map_append]
      exact .level ihl ih
  | levelFails _ ih => exact .levelFails ih
  | tighter hm _ ih => exact .tighter hm ih
  | tightest hm _ ih => exact .tightest hm ih
  | chainEnd hn => exact .chainEnd ((nextIs_map hk _ _).trans hn)
  | chain ho _ _ ihr ih =>
      rw [ExprRule.mapTokens, mapTokens_node] at ih
      rw [← hk] at ho
      rw [List.map_append]
      exact .chain ho ihr ih
  | chainFails ho _ ih =>
      rw [← hk] at ho
      exact .chainFails ho ih
  | unary ho _ ih =>
      rw [← hk] at ho
      exact .unary ho ih
  | unaryFails ho _ ih =>
      rw [← hk] at ho
      exact .unaryFails ho ih
  | primary hn _ ih => exact .primary ((nextIs_map hk _ _).trans hn) ih
  | atom ha => exact .atom (by rw [atom?_map hk hl, ha]; rfl)
  | grouping ho _ hc ih => exact .grouping ((hk _).trans ho) ih ((hk _).trans hc)
  | groupingFails ho _ ih => exact .groupingFails ((hk _).trans ho) ih
  | groupingOpen ho _ hn ih =>
      exact .groupingOpen ((hk _).trans ho) ih ((nextIs_map hk _ _).trans hn)
  | @noExpression ts hn =>
      refine .noExpression fun u hu => ?_
      rw [List.head?_map] at hu
      obtain ⟨t, ht, rfl⟩ := Option.mem_map.mp hu
      obtain ⟨hatom, hparen⟩ := hn t ht
      rw [atom?_map hk hl, hatom, hk]
      exact ⟨rfl, hparen⟩
  | terminated _ hs ih => exact .terminated ih ((hk _).trans hs)
  | terminatedFails _ ih => exact .terminatedFails ih
  | noSemicolon _ hn ih => exact .noSemicolon ih ((nextIs_map hk _ _).trans hn)
  | condition ho _ hc ih => exact .condition ((hk _).trans ho) ih ((hk _).trans hc)
  | noCondition hn => exact .noCondition ((nextIs_map hk _ _).trans hn)
  | conditionFails ho _ ih => exact .conditionFails ((hk _).trans ho) ih
  | conditionOpen ho _ hn ih =>
      exact .conditionOpen ((hk _).trans ho) ih ((nextIs_map hk _ _).trans hn)

/-- A run on other tokens of the same kinds and literals goes the same way. -/
theorem ReadsStmts.mapTokens {eof : Token} {r : StmtRule} {ts rest : List Token}
    {o : Except Expected (List Stmt)} {reports : List ParseError}
    (h : ReadsStmts eof r ts o rest reports) :
    ReadsStmts (f eof) r (ts.map f) (mapRead f o) (rest.map f)
      (reports.map (ParseError.mapToken f)) := by
  induction h with
  | nothing hn => exact .nothing ((stops_map hk _ _).trans hn)
  | kept hn _ _ ih ihs =>
      rw [List.map_append]
      exact .kept ((stops_map hk _ _).trans hn) ih ihs
  | @dropped _ _ rest _ missing _ _ _ hn _ _ ih ihs =>
      -- the blamed token is the next one, or the end
      have hblamed : ParseError.mapToken f ⟨rest.headD eof, .missing missing⟩ =
          ⟨(rest.map f).headD (f eof), .missing missing⟩ := by
        cases rest <;> rfl
      rw [List.map_append, List.map_append, List.map_singleton, hblamed]
      rw [← resume_map hk] at ihs
      exact .dropped ((stops_map hk _ _).trans hn) ih ihs
  | declare hv hn hs => exact .declare ((hk _).trans hv) ((hk _).trans hn) ((hk _).trans hs)
  | declareValue hv hn he h =>
      exact .declareValue ((hk _).trans hv) ((hk _).trans hn) ((hk _).trans he)
        (h.mapTokens hk hl)
  | noName hv hn => exact .noName ((hk _).trans hv) ((nextIs_map hk _ _).trans hn)
  | noValue hv hn he hs =>
      exact .noValue ((hk _).trans hv) ((hk _).trans hn) ((nextIs_map hk _ _).trans he)
        ((nextIs_map hk _ _).trans hs)
  | valueFails hv hn he h =>
      exact .valueFails ((hk _).trans hv) ((hk _).trans hn) ((hk _).trans he) (h.mapTokens hk hl)
  | statement hn _ ih => exact .statement ((nextIs_map hk _ _).trans hn) ih
  | expression hn h => exact .expression ((nextIs_map hk _ _).trans hn) (h.mapTokens hk hl)
  | expressionFails hn h =>
      exact .expressionFails ((nextIs_map hk _ _).trans hn) (h.mapTokens hk hl)
  | print hp h => exact .print ((hk _).trans hp) (h.mapTokens hk hl)
  | printFails hp h => exact .printFails ((hk _).trans hp) (h.mapTokens hk hl)
  | block ho _ hc ih => exact .block ((hk _).trans ho) ih ((hk _).trans hc)
  | blockOpen ho _ ih => exact .blockOpen ((hk _).trans ho) ih
  | conditionFails hi h => exact .conditionFails ((hk _).trans hi) (h.mapTokens hk hl)
  | thenFails hi hc _ ih =>
      rw [List.map_append]
      exact .thenFails ((hk _).trans hi) (hc.mapTokens hk hl) ih
  | ifThen hi hc _ hn ih =>
      rw [List.map_append]
      exact .ifThen ((hk _).trans hi) (hc.mapTokens hk hl) ih ((nextIs_map hk _ _).trans hn)
  | elseFails hi hc _ ho _ ih ihe =>
      rw [List.map_append, List.map_append]
      exact .elseFails ((hk _).trans hi) (hc.mapTokens hk hl) ih ((hk _).trans ho) ihe
  | ifElse hi hc _ ho _ ih ihe =>
      rw [List.map_append, List.map_append]
      exact .ifElse ((hk _).trans hi) (hc.mapTokens hk hl) ih ((hk _).trans ho) ihe

end Runs

end Parse

namespace Grammar

open Parse

/-- A program without faults is one with other tokens of the same kinds and literals as well. -/
theorem Strict.mapTokens {f : Token → Token} (hk : ∀ t, (f t).kind = t.kind)
    (hl : ∀ t, (f t).literal = t.literal) {ts : List Token} {ss : List Stmt}
    (h : Strict ts ss) : Strict (ts.map f) (Stmt.mapTokensAll f ss) := by
  -- it does not matter what would be blamed for a fault at the end
  obtain ⟨hread, -⟩ : ReadsStmts (.endOn 1) (.declarations false) ts (.ok ss) [] [] ∧ _ :=
    reads_nonfatal_iff.mpr ⟨[], h, rfl⟩
  obtain ⟨bad, hd, hbad⟩ := reads_nonfatal_iff.mp ⟨hread.mapTokens hk hl, by simp⟩
  obtain rfl : bad = [] := by simpa using hbad.symm
  exact hd

end Grammar

/-! ## Programs -/

namespace Program

variable {f : Token → Token} {ts : List Token}

theorem body_map (hk : ∀ t, (f t).kind = t.kind) (ts : List Token) :
    body (ts.map f) = (body ts).map f := by
  rw [body, body, List.takeWhile_map]
  simp only [Function.comp_def, hk]

theorem ending_map (hk : ∀ t, (f t).kind = t.kind) (heof : ∃ t ∈ ts, t.kind = .eof) :
    ending (ts.map f) = f (ending ts) := by
  obtain ⟨t, ht, heof⟩ := heof
  have hfind : (ts.find? (·.kind = .eof)).isSome :=
    List.find?_isSome.mpr ⟨t, ht, by simpa using heof⟩
  obtain ⟨eof, hfirst⟩ := Option.isSome_iff_exists.mp hfind
  have hmap : (ts.map f).find? (·.kind = .eof) = some (f eof) := by
    rw [List.find?_map]
    simp only [Function.comp_def, hk]
    rw [hfirst]
    rfl
  rw [ending, ending, hmap, hfirst]

/-- From other tokens of the same kinds and literals, the same program is read with these tokens in
it. -/
theorem ofTokens_map (hk : ∀ t, (f t).kind = t.kind) (hl : ∀ t, (f t).literal = t.literal)
    (heof : ∃ t ∈ ts, t.kind = .eof) : ofTokens (ts.map f) = (ofTokens ts).mapTokens f := by
  have hread := (reads_ofTokens ts).mapTokens hk hl
  rw [← ending_map hk heof, ← body_map hk] at hread
  exact ofTokens_eq_iff.mpr hread

end Program

/-- The token on the next line, unless it is one of the tokens. -/
def Token.movedFrom (ts : List Token) (t : Token) : Token :=
  if t ∈ ts then t else { t with line := t.line + 1 }

theorem Token.kind_movedFrom (ts : List Token) (t : Token) : (t.movedFrom ts).kind = t.kind := by
  unfold movedFrom
  split
  · rfl
  · rfl

theorem Token.literal_movedFrom (ts : List Token) (t : Token) :
    (t.movedFrom ts).literal = t.literal := by
  unfold movedFrom
  split
  · rfl
  · rfl

theorem Token.map_movedFrom (ts : List Token) : ts.map (Token.movedFrom ts) = ts := by
  conv_rhs => rw [← List.map_id ts]
  exact List.map_congr_left fun t ht => if_pos ht

/-- The names, operators and blamed tokens of a program are tokens that it was read from. -/
theorem Program.mem_of_mem_tokens {ts : List Token} (heof : ∃ t ∈ ts, t.kind = .eof) {t : Token}
    (ht : t ∈ (ofTokens ts).tokens) : t ∈ ts := by
  -- if all other tokens are moved, then nothing is moved in the program
  have hprogram : (ofTokens ts).mapTokens id = (ofTokens ts).mapTokens (Token.movedFrom ts) := by
    rw [← ofTokens_map (Token.kind_movedFrom ts) (Token.literal_movedFrom ts) heof,
      Token.map_movedFrom, mapTokens_id]
  have hsame : t = t.movedFrom ts := (mapTokens_inj _).mp hprogram t ht
  by_contra hnot
  rw [Token.movedFrom, if_neg hnot] at hsame
  exact absurd (congrArg Token.line hsame) (Nat.ne_add_one t.line)

/-- A map of tokens that keeps something of those in a list agrees on them with a map that keeps it
of all tokens. -/
theorem exists_extends {R : Token → Token → Prop} (hR : ∀ t, R t t) {f : Token → Token}
    {ts : List Token} (h : ∀ t ∈ ts, R t (f t)) :
    ∃ g : Token → Token, (∀ t, R t (g t)) ∧ ∀ t ∈ ts, f t = g t := by
  refine ⟨fun t => if t ∈ ts then f t else t, fun t => ?_, fun t ht => (if_pos ht).symm⟩
  dsimp only
  split
  · next ht => exact h t ht
  · exact hR t

/-- The same if the kinds and literals are known to be the same of the tokens in the list only. -/
theorem Program.ofTokens_map_of_mem {f : Token → Token} {ts : List Token}
    (h : ∀ t ∈ ts, (f t).kind = t.kind ∧ (f t).literal = t.literal)
    (heof : ∃ t ∈ ts, t.kind = .eof) : ofTokens (ts.map f) = (ofTokens ts).mapTokens f := by
  obtain ⟨g, hg, hfg⟩ := exists_extends (R := fun t u => u.kind = t.kind ∧ u.literal = t.literal)
    (fun _ => ⟨rfl, rfl⟩) h
  rw [List.map_congr_left hfg, ofTokens_map (fun t => (hg t).1) (fun t => (hg t).2) heof]
  exact (mapTokens_inj _).mpr fun t ht => (hfg t (mem_of_mem_tokens heof ht)).symm

/-! ## Places

Which of the tokens are in a program is told by tokens that have their places for lines. To put the
tokens of a list into a program of such tokens is to look up these places in the list.
-/

namespace Token

/-- The tokens of a list, each with its place in the list for a line. -/
def placed (ts : List Token) : List Token := ts.mapIdx fun i t => { t with line := i }

/-- The token of the list in the place that the placed token has. -/
def standing (ts : List Token) (m : Token) : Token := ts[m.line]?.getD m

variable {ts us : List Token}

theorem getElem?_placed (ts : List Token) (i : Nat) :
    (placed ts)[i]? = ts[i]?.map fun t => { t with line := i } := List.getElem?_mapIdx

/-- The tokens in the places of a list of the same length are that list. -/
theorem map_standing (h : ts.length = us.length) : (placed ts).map (standing us) = us := by
  refine List.ext_getElem? fun i => ?_
  rw [List.getElem?_map, getElem?_placed]
  by_cases hi : i < us.length
  · rw [List.getElem?_eq_getElem hi, List.getElem?_eq_getElem (h ▸ hi)]
    simp [standing, hi]
  · rw [List.getElem?_eq_none (Nat.le_of_not_lt hi),
      List.getElem?_eq_none (h ▸ Nat.le_of_not_lt hi)]
    rfl

theorem exists_eof_placed (h : ∃ t ∈ ts, t.kind = .eof) : ∃ m ∈ placed ts, m.kind = .eof := by
  obtain ⟨t, ht, heof⟩ := h
  obtain ⟨i, hi⟩ := List.mem_iff_getElem?.mp ht
  refine ⟨{ t with line := i }, List.mem_iff_getElem?.mpr ⟨i, ?_⟩, heof⟩
  rw [getElem?_placed, hi]
  rfl

/-- A placed token differs in its line only from the token in its place. -/
theorem standing_of_mem_placed {m : Token} (h : m ∈ placed ts) :
    ts[m.line]? = some (standing ts m) ∧ (standing ts m).kind = m.kind ∧
      (standing ts m).literal = m.literal := by
  obtain ⟨i, hi⟩ := List.mem_iff_getElem?.mp h
  rw [getElem?_placed] at hi
  obtain ⟨t, ht, rfl⟩ := Option.map_eq_some_iff.mp hi
  have hstanding : standing ts { t with line := i } = t := by simp [standing, ht]
  rw [hstanding]
  exact ⟨ht, rfl, rfl⟩

theorem placed_append_singleton (ts : List Token) (t : Token) :
    placed (ts ++ [t]) = placed ts ++ [{ t with line := ts.length }] := List.mapIdx_concat

theorem map_line_placed (ts : List Token) :
    (placed ts).map Token.line = List.range ts.length := by
  refine List.ext_getElem? fun i => ?_
  rw [List.getElem?_map, getElem?_placed]
  by_cases hi : i < ts.length
  · simp [hi]
  · simp [Nat.le_of_not_lt hi]

end Token

/-- A program is that of the placed tokens, with the tokens in their places. -/
theorem Program.ofTokens_placed {ts : List Token} (heof : ∃ t ∈ ts, t.kind = .eof) :
    ofTokens ts = (ofTokens (Token.placed ts)).mapTokens (Token.standing ts) := by
  rw [← ofTokens_map_of_mem (fun _ hm => (Token.standing_of_mem_placed hm).2)
    (Token.exists_eof_placed heof), Token.map_standing rfl]

end Lox
