import Mathlib.Tactic
import Lox.Proofs.Parse.Descent
import Lox.Proofs.Parse.Segment

set_option autoImplicit false

/-! # What the cursor does

Two facts about the cursor that reads a program. It never gets past the end: what stands behind the
first token of the kind `eof` does not matter, and without such a token one is supplied
(`Descent.program_upToEnd`). And from every place up to the end, the walk of every rule comes to an
end itself (`Descent.cursor_law`). An accepted rule has moved the cursor forward, and a fault blames
the token where the cursor was left, so that a declaration moves it forward in any case.
-/

namespace Lox

/-! ## Nothing is read past the end -/

namespace Program

/-- What is read depends on the tokens before the end and on the end only. -/
theorem ofTokens_congr {ts us : List Token} (hbody : body ts = body us)
    (hending : ending ts = ending us) : ofTokens ts = ofTokens us := by
  rw [← ofTokens_body ts, hbody, hending, ofTokens_body]

variable {ts : List Token} {eof : Token}

theorem ofTokens_behind_eof (hts : ∀ t ∈ ts, t.kind ≠ .eof) (heof : eof.kind = .eof)
    (us : List Token) : ofTokens (ts ++ eof :: us) = ofTokens (ts ++ [eof]) := by
  have hnone : ts.find? (·.kind = .eof) = none := by simpa using hts
  apply ofTokens_congr
  · rw [body_append hts, body_append hts]
    simp [body, heof]
  · rw [ending_concat hts heof]
    simp [ending, hnone, heof]

theorem ofTokens_without_eof (hts : ∀ t ∈ ts, t.kind ≠ .eof) :
    ofTokens ts = ofTokens (ts ++ [.endOn (ts.getLast?.elim 1 (·.line))]) := by
  have hnone : ts.find? (·.kind = .eof) = none := by simpa using hts
  apply ofTokens_congr
  · rw [body_concat hts rfl, body_eq_self hts]
  · rw [ending_concat hts rfl, ending, hnone]

end Program

namespace Descent

open Program

/-- Nothing is read past the first token of the kind `eof`. If there is none, the program is read as
if one with an empty lexeme and no literal followed, on the line of the last token, or on the first
line if there are no tokens. This holds of statements and faults alike, and of the cursor as of the
tokens before the end. -/
theorem program_upToEnd {ts : List Token} (hts : ∀ t ∈ ts, t.kind ≠ .eof) :
    (∀ (eof : Token) (us : List Token), eof.kind = .eof →
      ofTokens (ts ++ [eof] ++ us) = ofTokens (ts ++ [eof]) ∧
      program (ts ++ [eof] ++ us) = program (ts ++ [eof])) ∧
    ofTokens ts = ofTokens (ts ++ [⟨.eof, "", none, ts.getLast?.elim 1 (·.line)⟩]) ∧
    program ts = program (ts ++ [⟨.eof, "", none, ts.getLast?.elim 1 (·.line)⟩]) := by
  have hbehind : ∀ (eof : Token) (us : List Token), eof.kind = .eof →
      ofTokens (ts ++ [eof] ++ us) = ofTokens (ts ++ [eof]) := fun eof us heof => by
    rw [List.append_assoc]
    exact ofTokens_behind_eof hts heof us
  have hwithout := ofTokens_without_eof hts
  refine ⟨fun eof us heof => ⟨hbehind eof us heof, ?_⟩, hwithout, ?_⟩
  · rw [program_eq, program_eq, hbehind eof us heof]
  · rw [program_eq, program_eq]
    exact congrArg some hwithout

/-- The brace behind the end does not close the block. -/
theorem program_upToEnd_openBlock :
    (∀ t ∈ openBlock, t.kind ≠ .eof) ∧ (Token.endOn 7).kind = .eof ∧
    ofTokens (openBlock ++ [Token.endOn 7] ++ [word .rightBrace "\x7d"]) =
      ⟨[], [⟨Token.endOn 7, .missing .braceAfterBlock⟩]⟩ ∧
    program openBlock = some ⟨[], [⟨Token.endOn 1, .missing .braceAfterBlock⟩]⟩ := by
  have hts : ∀ t ∈ openBlock, t.kind ≠ .eof := by decide
  have heof : (Token.endOn 7).kind = .eof := rfl
  obtain ⟨hbehind, -, hwithout⟩ := program_upToEnd hts
  exact ⟨hts, heof, (hbehind _ _ heof).1.trans (by decide +kernel),
    (hwithout.trans (program_eq _)).trans (by decide +kernel)⟩

end Descent

/-! ## The law of the cursor -/

/-- What a rule makes of its tokens, told by the cursor. -/
def Parsed.told {α : Type} {n : Nat} (ts : List Token) (earlier : List ParseError) :
    Parsed α n → Except ParseError α × Cursor
  | accept a rest reports _ => (.ok a, ⟨Descent.startOf ts rest, earlier ++ reports⟩)
  | reject missing rest reports _ =>
    (.error ⟨rest.headD (Program.ending ts), .missing missing⟩,
      ⟨Descent.startOf ts rest, earlier ++ reports⟩)

namespace Parse

/-- The rule for primary expressions. Where no token is left, it fails as the rule above it does. -/
def primaryOf : (ts : List Token) → Parsed Expr ts.length
  | [] => unary []
  | t :: ts => primary t ts

/-- The rule behind `if`. -/
def conditional (eof : Token) (ts : List Token) : Parsed Stmt ts.length :=
  (condition ts).andThen fun e rest h => (branches eof e rest).within (le_of_shorter h)

variable {eof : Token}

theorem meets_primaryOf (ts : List Token) : (primaryOf ts).Meets (ReadsExpr .primary ts) := by
  cases ts with
  | nil =>
      rw [primaryOf, unary]
      exact .noExpression (by simp)
  | cons t ts => exact meets_rules.2.2.2.2.2.2 t ts

theorem meets_conditional {keyword : Token} (hk : keyword.kind = .kwIf) (ts : List Token) :
    (conditional eof ts).Meets (ReadsStmt eof .statement (keyword :: ts)) := by
  rw [conditional]
  refine (meets_condition ts).andThen (fun c rest reports hr hc => ?_)
    fun _ _ _ h => .conditionFails hk h
  exact (Parsed.meets_within _ _).mpr
    (((meets_stmtRules eof).2.2.2.2 c rest).imp fun _ _ _ h => h keyword ts reports hk hc)

end Parse

namespace Descent

open Program

variable {α : Type} {ts us rest : List Token} {reports : List ParseError}

/-- What the cursor did that came from the place `i` to `c`. -/
structure Moved (ts : List Token) (i : Nat) (r : Except ParseError α) (c : Cursor) : Prop where
  forward : i ≤ c.position
  notPast : c.position ≤ (body ts).length
  advances : ∀ a, r = .ok a → i < c.position
  blames : ∀ e, r = .error e → e.token = tokenAt ts c.position

/-- From every place up to the end, the walk of a rule comes to an end, and the cursor moves as it
has to. It makes of the tokens what the rule makes of those that are left. -/
structure Lawful (ts : List Token) (m : Step α)
    (rule : (us : List Token) → Parsed α us.length) : Prop where
  ends : ∀ i ≤ (body ts).length, ∀ earlier,
    ∃ r c, m.run.run ⟨i, earlier⟩ = some (r, c) ∧ Moved ts i r c
  agrees : ∀ i ≤ (body ts).length, ∀ earlier,
    m.run.run ⟨i, earlier⟩ = some ((rule ((body ts).drop i)).told ts earlier)

theorem startOf_drop {i : Nat} (hi : i ≤ (body ts).length) :
    startOf ts ((body ts).drop i) = i := by
  rw [startOf, List.length_drop]
  omega

theorem startOf_le (ts us : List Token) : startOf ts us ≤ (body ts).length := Nat.sub_le _ _

theorem startOf_mono (h : rest.length ≤ us.length) : startOf ts us ≤ startOf ts rest :=
  Nat.sub_le_sub_left h _

theorem startOf_lt (hus : us <:+ body ts) (h : rest.length < us.length) :
    startOf ts us < startOf ts rest := by
  have hle := hus.length_le
  rw [startOf, startOf]
  omega

/-- What a rule makes of the last tokens before the end moves the cursor as it has to. -/
theorem moved_told (earlier : List ParseError) (hus : us <:+ body ts) (p : Parsed α us.length)
    (hp : p.Meets fun _ rest _ => rest.length ≤ us.length → rest <:+ us) :
    Moved ts (startOf ts us) (p.told ts earlier).1 (p.told ts earlier).2 := by
  cases p with
  | accept a rest reports shorter =>
      exact
        { forward := startOf_mono (le_of_shorter shorter)
          notPast := startOf_le ts rest
          advances := fun _ _ => startOf_lt hus shorter
          blames := fun _ he => nomatch he }
  | reject missing rest reports noLonger =>
      refine
        { forward := startOf_mono noLonger
          notPast := startOf_le ts rest
          advances := fun _ ha => nomatch ha
          blames := ?_ }
      rintro _ ⟨⟩
      exact (tokenAt_startOf ((hp noLonger).trans hus)).symm

/-- A walk is lawful if it does what the rule is described to do. -/
theorem Lawful.of_meets {m : Step α} {rule : (us : List Token) → Parsed α us.length}
    {R : List Token → Except Expected α → List Token → List ParseError → Prop}
    (hrule : ∀ us, (rule us).Meets (R us))
    (hrest : ∀ {us o rest reports}, R us o rest reports → rest.length ≤ us.length → rest <:+ us)
    (hsteps : ∀ {us o rest reports}, us <:+ body ts → R us o rest reports →
      StepsTo ts m us o rest reports) : Lawful ts m rule := by
  have hagrees : ∀ i ≤ (body ts).length, ∀ earlier,
      m.run.run ⟨i, earlier⟩ = some ((rule ((body ts).drop i)).told ts earlier) := by
    intro i hi earlier
    have hdrop := List.drop_suffix i (body ts)
    have hmeets := hrule ((body ts).drop i)
    conv_lhs => rw [← startOf_drop hi]
    cases hp : rule ((body ts).drop i) with
    | accept a rest reports shorter =>
        rw [hp] at hmeets
        exact hsteps hdrop hmeets earlier
    | reject missing rest reports noLonger =>
        rw [hp] at hmeets
        exact hsteps hdrop hmeets earlier
  refine ⟨fun i hi earlier => ⟨_, _, hagrees i hi earlier, ?_⟩, hagrees⟩
  have hmoved := moved_told earlier (List.drop_suffix i (body ts)) (rule ((body ts).drop i))
    ((hrule _).imp fun _ _ _ h => hrest h)
  rwa [startOf_drop hi] at hmoved

/-- The rules for expressions are lawful. -/
theorem Lawful.ofExprRule {r : Parse.ExprRule} {rule : (us : List Token) → Parsed Expr us.length}
    (hrule : ∀ us, (rule us).Meets (Parse.ReadsExpr r us)) :
    Lawful ts (ofExprRule ts r) rule :=
  .of_meets hrule (fun h _ => h.suffix) fun hus h => h.stepsTo hus

/-- What is left behind a token is left of the tokens behind it. -/
theorem suffix_of_suffix_cons {t : Token} (h : rest <:+ t :: us)
    (hle : rest.length ≤ us.length) : rest <:+ us := by
  rcases List.suffix_cons_iff.mp h with rfl | h
  · rw [List.length_cons] at hle
    omega
  · exact h

theorem lawful_statement (ts : List Token) :
    Lawful ts (statement ts) (Parse.statement (ending ts)) :=
  .of_meets (Parse.meets_stmtRules (ending ts)).2.1 (fun h _ => h.suffix)
    fun hus h => h.follows hus _ rfl

theorem lawful_variableDeclaration (ts : List Token) :
    Lawful ts (variableDeclaration ts) Parse.variableDeclaration := by
  -- the rule reads the same behind any keyword
  have hk : (word .kwVar "var").kind = .kwVar := rfl
  exact .of_meets (@Parse.meets_variableDeclaration (ending ts) _ hk)
    (fun h hle => suffix_of_suffix_cons h.suffix hle)
    fun hus h => h.stepsTo_variableDeclaration hk hus _ rfl

theorem lawful_conditional (ts : List Token) :
    Lawful ts (conditional ts) (Parse.conditional (ending ts)) := by
  have hk : (word .kwIf "if").kind = .kwIf := rfl
  exact .of_meets (Parse.meets_conditional hk)
    (fun h hle => suffix_of_suffix_cons h.suffix hle)
    fun hus h => h.stepsTo_conditional hk hus _ rfl

theorem lawful_block (ts : List Token) :
    Lawful ts (block ts >>= fun ss => pure (.block ss)) (Parse.block (ending ts)) := by
  have hk : (word .leftBrace "\x7b").kind = .leftBrace := rfl
  exact .of_meets
    (fun us => ((Parse.meets_stmtRules (ending ts)).2.2.1 us).imp fun _ _ _ h => h _ hk)
    (fun h hle => suffix_of_suffix_cons h.suffix hle)
    fun hus h => h.stepsTo_block hk hus _ rfl

/-- A declaration comes to an end, and moves the cursor forward if it is not at the end. -/
theorem declaration_moves {i : Nat} (hi : i < (body ts).length) (earlier : List ParseError) :
    ∃ s c, (declaration ts).run ⟨i, earlier⟩ = some (s, c) ∧ i < c.position ∧
      c.position ≤ (body ts).length := by
  obtain ⟨t, us, hdrop⟩ : ∃ t us, (body ts).drop i = t :: us :=
    ⟨_, _, List.drop_eq_getElem_cons hi⟩
  have hus : t :: us <:+ body ts := hdrop ▸ List.drop_suffix i (body ts)
  have hwalk := ((Parse.meets_stmtRules (ending ts)).1 t us).walksTo hus earlier
  have hlt := startOf_lt hus (Parse.declaration (ending ts) t us).shorter
  rw [← hdrop, startOf_drop (Nat.le_of_lt hi)] at hwalk hlt
  exact ⟨_, _, hwalk, hlt, startOf_le ts _⟩

/-- So the declarations come to an end, wherever they start. -/
theorem declarations_end (inBlock : Bool) {i : Nat} (hi : i ≤ (body ts).length)
    (earlier : List ParseError) :
    ∃ ss c, (declarations ts inBlock).run ⟨i, earlier⟩ = some (ss, c) ∧ i ≤ c.position ∧
      c.position ≤ (body ts).length := by
  have hread := Parse.reads_declarations (ending ts) inBlock ((body ts).drop i)
  have hwalk := hread.follows (List.drop_suffix i (body ts)) _ rfl earlier
  have hle : startOf ts _ ≤ startOf ts _ := startOf_mono hread.suffix.length_le
  rw [startOf_drop hi] at hwalk hle
  exact ⟨_, _, hwalk, hle, startOf_le ts _⟩

/-- The law of the cursor. From every place up to the end, each rule comes to an end, never moves
the cursor back or past the end, moves it forward if it accepts, and blames a fault on the token
where it leaves the cursor. So a declaration that is not at the end moves the cursor forward,
whether it is kept or dropped, and the declarations of a block and of the program come to an end,
with the program that is read from the tokens before the end. -/
theorem cursor_law (ts : List Token) :
    (Lawful ts (expression ts) Parse.expression ∧
      Lawful ts (assignment ts) Parse.expression ∧
      (∀ l, Lawful ts (level ts l) (Parse.level l)) ∧
      Lawful ts (unary ts) Parse.unary ∧
      Lawful ts (primary ts) Parse.primaryOf ∧
      Lawful ts (statement ts) (Parse.statement (ending ts)) ∧
      Lawful ts (conditional ts) (Parse.conditional (ending ts)) ∧
      Lawful ts (variableDeclaration ts) Parse.variableDeclaration ∧
      Lawful ts (block ts >>= fun ss => pure (.block ss)) (Parse.block (ending ts))) ∧
    (∀ i earlier, i < (body ts).length → ∃ s c,
      (declaration ts).run ⟨i, earlier⟩ = some (s, c) ∧ i < c.position ∧
        c.position ≤ (body ts).length) ∧
    (∀ inBlock i earlier, i ≤ (body ts).length → ∃ ss c,
      (declarations ts inBlock).run ⟨i, earlier⟩ = some (ss, c) ∧ i ≤ c.position ∧
        c.position ≤ (body ts).length) ∧
    program ts = some (Program.ofTokens ts) := by
  have hexpression : Lawful ts (expression ts) Parse.expression :=
    .ofExprRule Parse.meets_expression
  have hassignment : Lawful ts (assignment ts) Parse.expression := by
    rwa [expression] at hexpression
  exact ⟨⟨hexpression, hassignment, fun l => .ofExprRule (Parse.meets_rules.2.2.1 l),
      .ofExprRule Parse.meets_rules.2.2.2.2.2.1, .ofExprRule Parse.meets_primaryOf,
      lawful_statement ts, lawful_conditional ts, lawful_variableDeclaration ts, lawful_block ts⟩,
    fun i earlier hi => declaration_moves hi earlier,
    fun inBlock i earlier hi => declarations_end inBlock hi earlier, program_eq ts⟩

/-- Behind the brace, the declaration `a;` is passed. -/
theorem cursor_law_openBlock :
    1 < (body openBlock).length ∧ ∃ s c,
      (declaration openBlock).run ⟨1, []⟩ = some (s, c) ∧ 1 < c.position ∧ c.position ≤ 3 :=
  have hi : 1 < (body openBlock).length := by decide
  ⟨hi, (cursor_law openBlock).2.1 1 [] hi⟩

end Descent

end Lox
