import Lox.Proofs.Parse.Acceptance
import Lox.Proofs.Parse.Context

set_option autoImplicit false

/-! # Independent faults

A program that is put together from segments is read segment by segment. A good segment has no
fatal fault. A bad segment has one, but it is a single line: it ends at its only semicolon, and
nothing in it could be taken for a block or for the start of another statement. Each bad segment
then has exactly one fatal fault, and resuming behind the fault stops at the end of the segment
(`Program.ofTokens_segments`), at top level as well as in a block.
-/

namespace Lox

namespace Parse

/-! ## Lines -/

/-- Whether the last of the tokens is the only semicolon among them. -/
def endsLine : List Token → Bool
  | [] => false
  | t :: ts => if t.kind = .semicolon then ts.isEmpty else endsLine ts

theorem endsLine_append {us : List Token} (h : ∀ t ∈ us, t.kind ≠ .semicolon) (ts : List Token) :
    endsLine (us ++ ts) = endsLine ts := by
  induction us with
  | nil => rfl
  | cons u us ih =>
      obtain ⟨hu, hus⟩ := List.forall_mem_cons.mp h
      rw [List.cons_append, endsLine, if_neg hu, ih hus]

theorem endsLine_semicolon {t : Token} (h : t.kind = .semicolon) {ts : List Token} :
    endsLine (t :: ts) ↔ ts = [] := by
  rw [endsLine, if_pos h, List.isEmpty_iff]

/-- Behind a fault in a line, reading goes on after the line, unless another statement seems to
start before. -/
theorem resume_of_endsLine {ts : List Token} (h : endsLine ts)
    (hk : ∀ t ∈ ts.tail, t.kind.startsStatement = false) (us : List Token) :
    resume (ts ++ us) = us := by
  induction ts with
  | nil => cases h
  | cons t ts ih =>
      by_cases ht : t.kind = .semicolon
      · -- the semicolon is the last token of the line
        obtain rfl := (endsLine_semicolon ht).mp h
        simp [resume, ht]
      · rw [endsLine, if_neg ht] at h
        cases ts with
        | nil => cases h
        | cons u ts =>
            obtain ⟨hu, hts⟩ := List.forall_mem_cons.mp hk
            rw [List.cons_append, resume, if_neg (by simp [ht, hu])]
            exact ih h hts

/-- What an outcome leaves over of a line: nothing if it is accepted, and the end of the line if it
is rejected. -/
def LeavesOfLine {α : Type} : Except Expected α → List Token → Prop
  | .ok _, rest => rest = []
  | .error _, rest => endsLine rest

variable {eof : Token}

/-- A rule that does not end with a semicolon leaves the end of the line over. -/
theorem ReadsExpr.endsLine_rest {r : ExprRule} {ts rest : List Token} {o : Except Expected Expr}
    {reports : List ParseError} (h : ReadsExpr r ts o rest reports)
    (hr : r.takes .semicolon = false) (hline : endsLine ts) : endsLine rest := by
  obtain ⟨us, rfl, hus⟩ := h.takes
  rwa [endsLine_append] at hline
  intro t ht hk
  have := hus t ht
  simp [hk, hr] at this

/-- An expression with a semicolon behind it takes a line to its end, or leaves the end over. -/
theorem ReadsExpr.line {missing : Expected} {ts rest : List Token} {o : Except Expected Expr}
    {reports : List ParseError} (h : ReadsExpr (.terminated missing) ts o rest reports)
    (hline : endsLine ts) : LeavesOfLine o rest := by
  cases h with
  | terminated h hs => exact (endsLine_semicolon hs).mp (h.endsLine_rest rfl hline)
  | terminatedFails h | noSemicolon h _ => exact h.endsLine_rest rfl hline

theorem endsLine_tail {k : Token} {ts : List Token} (hk : k.kind ≠ .semicolon)
    (h : endsLine (k :: ts)) : endsLine ts := by
  rwa [endsLine, if_neg hk] at h

/-- What becomes of a line without blocks: it has no fatal fault in it before the statement is
over, and either all of it is taken, or its end is left over. -/
theorem ReadsStmts.line {r : StmtRule} {ts rest : List Token} {o : Except Expected (List Stmt)}
    {reports : List ParseError} (h : ReadsStmts eof r ts o rest reports)
    (hr : ∀ inBlock, r ≠ .declarations inBlock) (hline : endsLine ts)
    (hbrace : ∀ t ∈ ts, t.kind ≠ .leftBrace) :
    (∀ e ∈ reports, e.isFatal = false) ∧ LeavesOfLine o rest := by
  induction h with
  | nothing | kept | dropped => exact absurd rfl (hr _)
  | declare hk hn hs =>
      have hline := endsLine_tail (by simp [hn]) (endsLine_tail (by simp [hk]) hline)
      exact ⟨by simp, (endsLine_semicolon hs).mp hline⟩
  | declareValue hk hn he h | valueFails hk hn he h =>
      have hline := endsLine_tail (by simp [hn]) (endsLine_tail (by simp [hk]) hline)
      exact ⟨h.nonfatal, h.line (endsLine_tail (by simp [he]) hline)⟩
  | noName hk _ => exact ⟨by simp, endsLine_tail (by simp [hk]) hline⟩
  | noValue hk hn _ _ =>
      exact ⟨by simp, endsLine_tail (by simp [hn]) (endsLine_tail (by simp [hk]) hline)⟩
  | statement _ _ ih => exact ih (by simp) hline hbrace
  | expression _ h | expressionFails _ h => exact ⟨h.nonfatal, h.line hline⟩
  | print hk h | printFails hk h =>
      exact ⟨h.nonfatal, h.line (endsLine_tail (by simp [hk]) hline)⟩
  | block ho _ _ _ | blockOpen ho _ _ => exact absurd ho (hbrace _ List.mem_cons_self)
  | conditionFails hk h =>
      exact ⟨h.nonfatal, h.endsLine_rest rfl (endsLine_tail (by simp [hk]) hline)⟩
  | thenFails hk hc _ ih | ifThen hk hc _ _ ih =>
      have hrest := hc.endsLine_rest rfl (endsLine_tail (by simp [hk]) hline)
      obtain ⟨hn, ho⟩ := ih (by simp) hrest
        fun t ht => hbrace t (List.mem_cons_of_mem _ (hc.suffix.subset ht))
      exact ⟨List.forall_mem_append.mpr ⟨hc.nonfatal, hn⟩, ho⟩
  | elseFails hk hc _ _ _ ih _ | ifElse hk hc _ _ _ ih _ =>
      -- the first branch takes the line to its end, so there is no `else`
      have hrest := hc.endsLine_rest rfl (endsLine_tail (by simp [hk]) hline)
      obtain ⟨-, ho⟩ := ih (by simp) hrest
        fun t ht => hbrace t (List.mem_cons_of_mem _ (hc.suffix.subset ht))
      cases ho

end Parse

namespace Program

open Parse

/-! ## Segments -/

/-- Tokens without a fatal fault. -/
structure IsGood (s : List Token) : Prop where
  noEnd : ∀ t ∈ s, t.kind ≠ .eof
  nonfatal : ∀ e ∈ (ofTokens s).errors, e.isFatal = false

instance (s : List Token) : Decidable (IsGood s) :=
  decidable_of_iff ((∀ t ∈ s, t.kind ≠ .eof) ∧ ∀ e ∈ (ofTokens s).errors, e.isFatal = false)
    ⟨fun h => ⟨h.1, h.2⟩, fun h => ⟨h.noEnd, h.nonfatal⟩⟩

/-- A line with a fatal fault: there is no semicolon in it but at its end, no brace, and no word
that starts a statement but at its start. -/
structure IsBad (s : List Token) : Prop where
  fatal : ∃ e ∈ (ofTokens s).errors, e.isFatal
  noBrace : ∀ t ∈ s, t.kind ≠ .leftBrace ∧ t.kind ≠ .rightBrace ∧ t.kind ≠ .eof
  line : ∃ us semicolon, s = us ++ [semicolon] ∧ semicolon.kind = .semicolon ∧
    ∀ t ∈ us, t.kind ≠ .semicolon
  oneWord : ∀ t ∈ s.tail, t.kind.startsStatement = false

theorem IsBad.not_isGood {s : List Token} (h : IsBad s) : ¬ IsGood s := by
  intro hg
  obtain ⟨e, he, hfatal⟩ := h.fatal
  simp [hg.nonfatal e he] at hfatal

theorem mem_tail_of_suffix {α : Type} {xs ys : List α} {x : α} (h : xs <:+ ys) (hx : x ∈ xs.tail) :
    x ∈ ys.tail := by
  obtain ⟨zs, rfl⟩ := h
  cases zs with
  | nil => exact hx
  | cons z zs => exact List.mem_append_right zs (List.mem_of_mem_tail hx)

theorem body_eq_self {s : List Token} (h : ∀ t ∈ s, t.kind ≠ .eof) : body s = s := by
  simpa [body] using body_append h []

variable {eof : Token}

/-- A good segment is read in front of others as it is read alone. -/
theorem IsGood.reads {s : List Token} (h : IsGood s) {inBlock : Bool} {us rest : List Token}
    {ss : List Stmt} {reports : List ParseError} (hu : nextIs (· = .kwElse) us = false)
    (hus : ReadsStmts eof (.declarations inBlock) us (.ok ss) rest reports) :
    ReadsStmts eof (.declarations inBlock) (s ++ us) (.ok ((ofTokens s).statements ++ ss)) rest
      ((ofTokens s).errors ++ reports) := by
  have hread := reads_ofTokens s
  rw [body_eq_self h.noEnd] at hread
  obtain ⟨bad, hd, hbad⟩ := reads_nonfatal_iff.mp ⟨hread, h.nonfatal⟩
  rw [hbad]
  exact reads_of_statements hd inBlock us ss rest reports hu hus

/-- The first fault of a bad segment, which is the only fatal one. -/
theorem IsBad.fails {s : List Token} (h : IsBad s) :
    ∃ missing blamed rest reports,
      ReadsStmts (ending s) .declaration s (.error missing) (blamed :: rest) reports ∧
      (∀ us, resume (blamed :: rest ++ us) = us) ∧ (∀ e ∈ reports, e.isFatal = false) ∧
      ofTokens s = ⟨[], reports ++ [⟨blamed, .missing missing⟩]⟩ := by
  have hline : endsLine s := by
    obtain ⟨us, semicolon, rfl, hs, hus⟩ := h.line
    rw [endsLine_append hus]
    exact (endsLine_semicolon hs).mpr rfl
  obtain ⟨ss, errors, hp⟩ : ∃ ss errors, ofTokens s = ⟨ss, errors⟩ := ⟨_, _, rfl⟩
  obtain ⟨e, he, hfatal⟩ := h.fatal
  have hread := ofTokens_eq_iff.mp hp
  rw [body_eq_self fun t ht => (h.noBrace t ht).2.2] at hread
  cases hread with
  | nothing hn =>
      rw [hp] at he
      cases he
  | kept hn hd hs =>
      -- the line is used up by the one statement, which reports no fatal fault
      obtain ⟨hnonfatal, hrest⟩ := hd.line (by simp) hline fun t ht => (h.noBrace t ht).1
      obtain rfl := hrest
      obtain ⟨⟨⟩, -, rfl⟩ := hs.unique (.nothing rfl)
      rw [hp, List.append_nil] at he
      simp [hnonfatal e he] at hfatal
  | @dropped _ _ rest _ missing _ reports _ hn hd hs =>
      obtain ⟨hnonfatal, hrest⟩ := hd.line (by simp) hline fun t ht => (h.noBrace t ht).1
      have hwords : ∀ t ∈ rest.tail, t.kind.startsStatement = false :=
        fun t ht => h.oneWord t (mem_tail_of_suffix hd.suffix ht)
      -- what is left of the line is passed over, and nothing comes after it
      have hresume := resume_of_endsLine hrest hwords
      have hnil : resume rest = [] := by simpa using hresume []
      rw [hnil] at hs
      obtain ⟨⟨⟩, -, rfl⟩ := hs.unique (.nothing rfl)
      cases rest with
      | nil => cases hrest
      | cons blamed rest =>
          rw [List.append_nil] at hp
          exact ⟨missing, blamed, rest, reports, hd, hresume, hnonfatal, hp⟩

/-- A bad segment is dropped in front of others as it is dropped alone. -/
theorem IsBad.reads {s : List Token} (h : IsBad s) {inBlock : Bool} {us rest : List Token}
    {ss : List Stmt} {reports : List ParseError}
    (hus : ReadsStmts eof (.declarations inBlock) us (.ok ss) rest reports) :
    ReadsStmts eof (.declarations inBlock) (s ++ us) (.ok ss) rest
      ((ofTokens s).errors ++ reports) := by
  obtain ⟨missing, blamed, rest', reports', hd, hresume, -, hp⟩ := h.fails
  have hstops : stops inBlock (s ++ us) = false := by
    cases s with
    | nil => exact absurd (List.suffix_nil.mp hd.suffix) (by simp)
    | cons t s => simp [(h.noBrace t List.mem_cons_self).2.1]
  have hdropped := ReadsStmts.dropped hstops (hd.append (by simp) eof us)
    (by rw [hresume]; exact hus)
  rw [hp]
  simpa using hdropped

/-- A segment is read in front of others as it is read alone. -/
theorem reads_segment {s : List Token} (h : IsGood s ∨ IsBad s) {inBlock : Bool}
    {us rest : List Token} {ss : List Stmt} {reports : List ParseError}
    (hu : nextIs (· = .kwElse) us = false)
    (hus : ReadsStmts eof (.declarations inBlock) us (.ok ss) rest reports) :
    ReadsStmts eof (.declarations inBlock) (s ++ us) (.ok ((ofTokens s).statements ++ ss)) rest
      ((ofTokens s).errors ++ reports) := by
  rcases h with hg | hb
  · exact hg.reads hu hus
  · obtain ⟨_, _, _, _, -, -, -, hp⟩ := hb.fails
    have hread := hb.reads hus
    rw [hp] at hread ⊢
    exact hread

/-- Segments are read in front of others as they are read alone. -/
theorem reads_segments {segments : List (List Token)} (h : ∀ s ∈ segments, IsGood s ∨ IsBad s)
    (he : ∀ s ∈ segments, nextIs (· = .kwElse) s = false) {inBlock : Bool}
    {us rest : List Token} {ss : List Stmt} {reports : List ParseError}
    (hu : nextIs (· = .kwElse) us = false)
    (hus : ReadsStmts eof (.declarations inBlock) us (.ok ss) rest reports) :
    ReadsStmts eof (.declarations inBlock) (segments.flatten ++ us)
      (.ok (segments.flatMap (fun s => (ofTokens s).statements) ++ ss)) rest
      (segments.flatMap (fun s => (ofTokens s).errors) ++ reports) ∧
    nextIs (· = .kwElse) (segments.flatten ++ us) = false := by
  induction segments with
  | nil => exact ⟨by simpa using hus, by simpa using hu⟩
  | cons s segments ih =>
      obtain ⟨hs, hsegments⟩ := List.forall_mem_cons.mp h
      obtain ⟨hes, hesegments⟩ := List.forall_mem_cons.mp he
      obtain ⟨hread, hnext⟩ := ih hsegments hesegments
      refine ⟨by simpa using reads_segment hs hnext hread, ?_⟩
      rw [List.flatten_cons, List.append_assoc]
      cases s with
      | nil => exact hnext
      | cons t s => exact hes

/-- Only good segments have statements. -/
theorem flatMap_statements_eq {segments : List (List Token)}
    (h : ∀ s ∈ segments, IsGood s ∨ IsBad s) :
    segments.flatMap (fun s => (ofTokens s).statements) =
      (segments.filter fun s => IsGood s).flatMap fun s => (ofTokens s).statements := by
  induction segments with
  | nil => rfl
  | cons s segments ih =>
      obtain ⟨hs, hsegments⟩ := List.forall_mem_cons.mp h
      rw [List.flatMap_cons, ih hsegments, List.filter_cons]
      rcases hs with hg | hb
      · rw [if_pos (by simpa using hg), List.flatMap_cons]
      · obtain ⟨_, _, _, _, -, -, -, hp⟩ := hb.fails
        rw [if_neg (by simpa using hb.not_isGood), hp, List.nil_append]

theorem ending_append {ts us : List Token} (hts : ∀ t ∈ ts, t.kind ≠ .eof) (hus : us ≠ []) :
    ending (ts ++ us) = ending us := by
  have hnone : ts.find? (·.kind = .eof) = none := by simpa using hts
  have hlast : (ts ++ us).getLast? = us.getLast? := by
    rw [List.getLast?_append_of_ne_nil _ hus]
  rw [ending, ending, List.find?_append, hnone, Option.none_or, hlast]

/-- Reading tokens does not depend on the tokens in front of them that are before the end. -/
theorem reads_ofTokens_behind {ts : List Token} (hts : ∀ t ∈ ts, t.kind ≠ .eof) (us : List Token) :
    ReadsStmts (ending (ts ++ us)) (.declarations false) (body us) (.ok (ofTokens us).statements) []
      (ofTokens us).errors := by
  have hread := reads_ofTokens us
  cases us with
  | nil =>
      obtain ⟨h, -, h'⟩ := hread.unique (.nothing rfl)
      rw [h, h']
      exact .nothing rfl
  | cons u us =>
      rw [ending_append hts (by simp)]
      exact hread

/-- **Independent faults.** Segments in front of any tokens, none of which starts with an `else`,
are read one by one: the statements are those of the good segments and then those of the tokens
behind them, and the faults are those of each segment alone, of which one is fatal in each bad
segment. In a block, the same statements and faults are read. -/
theorem ofTokens_segments {segments : List (List Token)} {us : List Token} {opening closing : Token}
    (hs : ∀ s ∈ segments, IsGood s ∨ IsBad s)
    (he : ∀ s ∈ segments, nextIs (· = .kwElse) s = false) (hu : nextIs (· = .kwElse) us = false)
    (ho : opening.kind = .leftBrace) (hc : closing.kind = .rightBrace) :
    ofTokens (segments.flatten ++ us) =
      ⟨((segments.filter fun s => IsGood s).flatMap fun s => (ofTokens s).statements) ++
          (ofTokens us).statements,
        (segments.flatMap fun s => (ofTokens s).errors) ++ (ofTokens us).errors⟩ ∧
    (∀ s ∈ segments, IsBad s → ((ofTokens s).errors.filter (·.isFatal)).length = 1) ∧
    ofTokens (opening :: (segments.flatten ++ [closing])) =
      ⟨[.block ((segments.filter fun s => IsGood s).flatMap fun s => (ofTokens s).statements)],
        segments.flatMap fun s => (ofTokens s).errors⟩ := by
  have hend : ∀ t ∈ segments.flatten, t.kind ≠ .eof := by
    intro t ht
    obtain ⟨s, hmem, hts⟩ := List.mem_flatten.mp ht
    rcases hs s hmem with hg | hb
    · exact hg.noEnd t hts
    · exact (hb.noBrace t hts).2.2
  rw [← flatMap_statements_eq hs]
  refine ⟨ofTokens_eq_iff.mpr ?_, fun s _ hb => ?_, ofTokens_eq_iff.mpr ?_⟩
  · have hbody : nextIs (· = .kwElse) (body us) = false := by
      cases us with
      | nil => rfl
      | cons u us =>
          rw [body, List.takeWhile_cons]
          split
          · exact hu
          · rfl
    rw [body_append hend]
    exact (reads_segments hs he hbody (reads_ofTokens_behind hend us)).1
  · obtain ⟨missing, blamed, _, reports, -, -, hnonfatal, hp⟩ := hb.fails
    have hnone : reports.filter (·.isFatal) = [] :=
      List.filter_eq_nil_iff.mpr fun e he => by simp [hnonfatal e he]
    rw [hp, List.filter_append, hnone]
    rfl
  · have hbody : body (opening :: (segments.flatten ++ [closing])) =
        opening :: (segments.flatten ++ [closing]) := by
      refine body_eq_self (List.forall_mem_cons.mpr ⟨by simp [ho], ?_⟩)
      exact List.forall_mem_append.mpr ⟨hend, by simp [hc]⟩
    rw [hbody]
    have hclose : ReadsStmts (ending (opening :: (segments.flatten ++ [closing])))
        (.declarations true) [closing] (.ok []) [closing] [] := .nothing (by simp [hc])
    have hinner := (reads_segments hs he (by simp [hc]) hclose).1
    rw [List.append_nil, List.append_nil] at hinner
    have hblock := ReadsStmts.statement (by simp [ho]) (.block ho hinner hc)
    simpa using ReadsStmts.kept (by simp [ho]) hblock (.nothing rfl)

/-- The tokens of `print a;`. -/
def goodLine : List Token := [word .kwPrint "print", word .identifier "a", word .semicolon ";"]

/-- The tokens of `(nil = a) a;`, with a fault that is not fatal and then a fatal one. -/
def badLine : List Token :=
  [word .leftParen "(", word .kwNil "nil", word .equal "=", word .identifier "a",
   word .rightParen ")", word .identifier "a", word .semicolon ";"]

/-- The tokens of `{ a;`, a block that does not end. -/
def openBlock : List Token := [word .leftBrace "\x7b", word .identifier "a", word .semicolon ";"]

/-- A bad line between good lines is reported and dropped, in front of an open block as well as in
a block. -/
theorem ofTokens_badLine :
    IsGood goodLine ∧ IsBad badLine ∧
    ofTokens ([goodLine, badLine, goodLine].flatten ++ openBlock) =
      ⟨[.print (.var (word .identifier "a")), .print (.var (word .identifier "a"))],
        [⟨word .equal "=", .invalidTarget⟩,
         ⟨word .identifier "a", .missing .semicolonAfterExpression⟩,
         ⟨Token.endOn 1, .missing .braceAfterBlock⟩]⟩ ∧
    ofTokens (word .leftBrace "\x7b" ::
        ([goodLine, badLine, goodLine].flatten ++ [word .rightBrace "\x7d"])) =
      ⟨[.block [.print (.var (word .identifier "a")), .print (.var (word .identifier "a"))]],
        [⟨word .equal "=", .invalidTarget⟩,
         ⟨word .identifier "a", .missing .semicolonAfterExpression⟩]⟩ := by
  have hg : IsGood goodLine := by decide +kernel
  have hb : IsBad badLine :=
    ⟨by decide +kernel, by decide, ⟨badLine.dropLast, word .semicolon ";", rfl, rfl, by decide⟩,
      by decide⟩
  have hs : ∀ s ∈ [goodLine, badLine, goodLine], IsGood s ∨ IsBad s := by simp [hg, hb]
  have he : ∀ s ∈ [goodLine, badLine, goodLine], nextIs (· = .kwElse) s = false := by decide
  obtain ⟨hread, -, hblock⟩ := @ofTokens_segments _ openBlock (word .leftBrace "\x7b")
    (word .rightBrace "\x7d") hs he rfl rfl rfl
  exact ⟨hg, hb, hread.trans (by decide +kernel), hblock.trans (by decide +kernel)⟩

end Program

end Lox
