import Mathlib.Tactic
import Lox.Execution
import Lox.Proofs.Number.Canonical
import Lox.Proofs.Run.Expression

set_option autoImplicit false

/-! # Execution follows the semantics

What `Lox.Proofs.Run.Expression` shows of expressions holds of statements as well: an interpreter
that represents a state of the semantics comes to what the semantics says of that state
(`Semantics.Executes.run`), and the semantics says something of every statement unless the
execution comes upon a misfit operator (`Stmt.executes_or_misfit`). A block executes in a scope that
stands for the map in front, so that closing the scope takes the map away.
-/

namespace Lox

open Semantics Execution

variable {ω : Type}

/-! ## Writing -/

/-- A print statement shows the one text that the semantics allows. -/
theorem Semantics.shows_iff {v : Value} {text : String} : Shows v text ↔ text = v.text := by
  constructor
  · intro h
    cases h with
    | nil | «true» | «false» | string => rfl
    | number h => exact Numeral.isCanonical_iff.mp h
  · rintro rfl
    match v with
    | .nil => exact .nil
    | .boolean true => exact .true
    | .boolean false => exact .false
    | .number _ => exact .number (Numeral.isCanonical_iff.mpr rfl)
    | .string _ => exact .string

theorem Semantics.shows_text (v : Value) : Shows v v.text := shows_iff.mpr rfl

section Writing

variable [Writer ω]

theorem Semantics.Writes.run {bytes : List UInt8} {sink sink' : ω} {r : Except WriteError Unit}
    (h : Writes bytes sink r sink') : Writer.writeAll bytes sink = ended r sink' := by
  induction h with
  | nothing => rw [Writer.writeAll, ended]
  | @some bytes sink sink₁ sink' n r hne hw hn _ ih =>
      obtain ⟨b, bs, rfl⟩ := List.exists_cons_of_ne_nil hne
      obtain ⟨k, rfl⟩ := Nat.exists_eq_succ_of_ne_zero hn
      rw [Writer.writeAll]
      simp only [hw]
      exact ih
  | @stalled bytes sink sink' hne hw =>
      obtain ⟨b, bs, rfl⟩ := List.exists_cons_of_ne_nil hne
      rw [Writer.writeAll]
      simp only [hw, ended]
  | @refused bytes sink sink' reason hne hw =>
      obtain ⟨b, bs, rfl⟩ := List.exists_cons_of_ne_nil hne
      rw [Writer.writeAll]
      simp only [hw, ended]

/-- Every write takes a byte at least or is the last, so something comes of writing. -/
theorem exists_writes (bytes : List UInt8) (sink : ω) : ∃ r sink', Writes bytes sink r sink' := by
  induction hn : bytes.length using Nat.strong_induction_on generalizing bytes sink with
  | _ n ih =>
      by_cases hne : bytes = []
      · subst hne
        exact ⟨_, _, .nothing⟩
      · have hpos : 0 < bytes.length := List.length_pos_iff.mpr hne
        rcases hw : Writer.write bytes sink with ⟨count | reason, sink'⟩
        · by_cases hcount : count = 0
          · subst hcount
            exact ⟨_, _, .stalled hne hw⟩
          · -- some bytes were taken, so fewer are left
            have hlt : (bytes.drop count).length < n := by
              rw [List.length_drop]
              omega
            obtain ⟨r, sink'', hr⟩ := ih _ hlt _ sink' rfl
            exact ⟨r, sink'', .some hne hw hcount hr⟩
        · exact ⟨_, _, .refused hne hw⟩

theorem exists_prints (text : String) (sink : ω) : ∃ r sink', Prints text sink r sink' := by
  rcases exists_writes (bytesOf text) sink with ⟨e | ⟨⟩, sink₁, ht⟩
  · exact ⟨_, _, .textFails ht⟩
  · obtain ⟨r, sink₂, hn⟩ := exists_writes (bytesOf "\n") sink₁
    exact ⟨r, sink₂, .line ht hn⟩

end Writing

/-! ## States of interpreters -/

/-- What comes of a statement, as the result of executing it. -/
def Semantics.Outcome.result : Outcome → Except Failure Unit
  | done => .ok ()
  | runtime e => .error (.runtime e)
  | output e => .error (.output e)

theorem Semantics.Outcome.result_inj {o o' : Outcome} : o.result = o'.result ↔ o = o' := by
  cases o <;> cases o' <;> simp [result]

/-- No outcome of the semantics is a misfit operator. -/
theorem Semantics.Outcome.ended_ne_misfit {σ : Type} {o : Outcome} {s t : σ} {operator : Token} :
    ended o.result s ≠ .error (.misfit operator) t := by
  cases o <;> exact nofun

theorem Semantics.Outcome.result_ofWriting (r : Except WriteError Unit) :
    (ofWriting r).result = r.mapError .output := by
  cases r <;> rfl

namespace Interpreter

/-- The state of the semantics that an interpreter is in when it executes in the last scope. -/
structure Represents (s : Interpreter ω) (scope : Nat) (σ : State ω) : Prop where
  frames : s.environment.Represents scope σ.frames
  sink : s.output = σ.sink

/-- Notes an event. -/
def noted (s : Interpreter ω) (event : Event) : Interpreter ω :=
  { s with trace := s.trace.push event }

theorem Represents.noted {s : Interpreter ω} {scope : Nat} {σ : State ω}
    (h : s.Represents scope σ) (event : Event) : (s.noted event).Represents scope σ :=
  ⟨h.frames, h.sink⟩

/-- The interpreter in a new scope inside the scope `inside`. -/
def entered (s : Interpreter ω) (inside : Nat) : Interpreter ω :=
  { s.noted (.opened s.environment.scopes.size inside) with
    environment := s.environment.openScope inside }

/-- The interpreter when the scope `scope` is closed. -/
def exited (s : Interpreter ω) (scope : Nat) : Interpreter ω :=
  { s.noted (.closed scope) with environment := s.environment.closeScope scope }

theorem Represents.entered {s : Interpreter ω} {scope : Nat} {ms : Frames} {sink : ω}
    (h : s.Represents scope ⟨ms, sink⟩) :
    (s.entered scope).Represents (scope + 1) ⟨∅ :: ms, sink⟩ where
  frames := by
    rw [← h.frames.size]
    exact h.frames.openScope
  sink := h.sink

theorem Represents.exited {s : Interpreter ω} {scope : Nat}
    {m : Std.ExtTreeMap String Value} {ms : Frames} {sink : ω}
    (h : s.Represents (scope + 1) ⟨m :: ms, sink⟩) :
    (s.exited (scope + 1)).Represents scope ⟨ms, sink⟩ where
  frames := h.frames.closeScope
  sink := h.sink

end Interpreter

/-! ## Scopes -/

/-- However a run in a new scope ends, the scope is closed. -/
theorem inScope_of_outcome {s t : Interpreter ω} {inside : Nat} {run : Nat → Execution ω Unit}
    {o : Outcome} (h : run s.environment.scopes.size (s.entered inside) = ended o.result t) :
    inScope inside run s = ended o.result (t.exited s.environment.scopes.size) := by
  show EStateM.bind (EStateM.tryCatch (run s.environment.scopes.size) _) _ (s.entered inside) = _
  cases o with
  | done =>
      simp only [EStateM.bind, EStateM.tryCatch, h, Outcome.result, ended]
      rfl
  | runtime e =>
      simp only [EStateM.bind, EStateM.tryCatch, h, Outcome.result, ended]
      rfl
  | output e =>
      simp only [EStateM.bind, EStateM.tryCatch, h, Outcome.result, ended]
      rfl

theorem inScope_of_misfit {s t : Interpreter ω} {inside : Nat} {run : Nat → Execution ω Unit}
    {operator : Token}
    (h : run s.environment.scopes.size (s.entered inside) = .error (.misfit operator) t) :
    inScope inside run s = .error (.misfit operator) t := by
  -- the failure is passed on before the scope is closed
  show EStateM.bind (EStateM.tryCatch (run s.environment.scopes.size) _) _ (s.entered inside) = _
  simp only [EStateM.bind, EStateM.tryCatch, h]
  rfl

/-! ## Statements -/

theorem Semantics.Evaluates.execution {e : Expr} {ms ms' : Frames}
    {r : Except RuntimeError Value} (h : Evaluates e ms r ms') {s : Interpreter ω} {scope : Nat}
    {sink : ω} (hrep : s.Represents scope ⟨ms, sink⟩) :
    ∃ t, ofEvaluation (e.evaluate scope) s = ended (r.mapError .runtime) t ∧
      t.Represents scope ⟨ms', sink⟩ := by
  obtain ⟨env', hrun, hrep'⟩ := h.run hrep.frames
  refine ⟨{ s with environment := env' }, ?_, hrep', hrep.sink⟩
  rw [ofEvaluation, hrun]
  cases r <;> rfl

/-- Evaluation within an execution comes to something, or upon a misfit operator. -/
theorem evaluation_or_misfit (e : Expr) {s : Interpreter ω} {scope : Nat} {σ : State ω}
    (hrep : s.Represents scope σ) :
    (∃ f ms', Evaluates e σ.frames (.error f) ms') ∨
      (∃ v ms' t, Evaluates e σ.frames (.ok v) ms' ∧
        ofEvaluation (e.evaluate scope) s = .ok v t ∧ t.Represents scope ⟨ms', σ.sink⟩) ∨
      ¬e.Fits ∧ ∃ operator t, ofEvaluation (e.evaluate scope) s = .error (.misfit operator) t := by
  rcases e.evaluates_or_misfit hrep.frames with ⟨f | v, ms', h⟩ | ⟨hfits, operator, env', hrun⟩
  · exact .inl ⟨f, ms', h⟩
  · obtain ⟨t, hrun, hrep'⟩ := h.execution hrep
    exact .inr (.inl ⟨v, ms', t, h, hrun, hrep'⟩)
  · refine .inr (.inr ⟨hfits, operator, { s with environment := env' }, ?_⟩)
    rw [ofEvaluation, hrun]

section Statements

variable [Writer ω]

/-- Writing changes nothing but the sink. -/
theorem Semantics.Writes.execution {text : String} {r : Except WriteError Unit} {ms : Frames}
    {sink sink' : ω} (h : Writes (bytesOf text) sink r sink') {s : Interpreter ω} {scope : Nat}
    (hrep : s.Represents scope ⟨ms, sink⟩) :
    ∃ t, ofWriting (Writer.writeText text) s = ended (r.mapError .output) t ∧
      t.Represents scope ⟨ms, sink'⟩ := by
  refine ⟨{ s with output := sink' }, ?_, hrep.frames, rfl⟩
  have hsink : s.output = sink := hrep.sink
  have hrun : Writer.writeText text s.output = ended r sink' := by
    rw [hsink]
    exact h.run
  rw [ofWriting, hrun]
  cases r <;> rfl

theorem Semantics.Prints.execution {text : String} {r : Except WriteError Unit} {ms : Frames}
    {sink sink' : ω} (h : Prints text sink r sink') {s : Interpreter ω} {scope : Nat}
    (hrep : s.Represents scope ⟨ms, sink⟩) :
    ∃ t, (do ofWriting (Writer.writeText text); ofWriting (Writer.writeText "\n")) s =
        ended (r.mapError .output) t ∧
      t.Represents scope ⟨ms, sink'⟩ := by
  cases h with
  | line ht hn =>
      obtain ⟨s₁, h₁, hrep₁⟩ := ht.execution hrep
      obtain ⟨s₂, h₂, hrep₂⟩ := hn.execution hrep₁
      exact ⟨s₂, (bind_of_ok h₁ _).trans h₂, hrep₂⟩
  | textFails ht =>
      obtain ⟨t, h, hrep'⟩ := ht.execution hrep
      exact ⟨t, bind_of_error h _, hrep'⟩

mutual

/-- What the semantics says of a statement in the state of an interpreter is what executing it
comes to, and the interpreter is then in the state that the semantics says. -/
theorem Semantics.Executes.run {st : Stmt} {σ σ' : State ω} {o : Outcome}
    (h : Executes st σ o σ') {s : Interpreter ω} {scope : Nat} (hrep : s.Represents scope σ) :
    ∃ t, st.execute scope s = ended o.result t ∧ t.Represents scope σ' := by
  -- on the statement first, so that its execution unfolds, and then on the rule that applies
  cases st with
  | expression e =>
      have hnoted := hrep.noted (.executing .expression)
      cases h with
      | expression he =>
          obtain ⟨t, hrun, hrep'⟩ := he.execution hnoted
          exact ⟨t, bind_of_ok hrun _, hrep'⟩
      | expressionFails he =>
          obtain ⟨t, hrun, hrep'⟩ := he.execution hnoted
          exact ⟨t, bind_of_error hrun _, hrep'⟩
  | print e =>
      have hnoted := hrep.noted (.executing .print)
      cases h with
      | print he ht hp =>
          obtain rfl := shows_iff.mp ht
          obtain ⟨s₁, hrun, hrep₁⟩ := he.execution hnoted
          obtain ⟨t, hprint, hrep'⟩ := hp.execution hrep₁
          refine ⟨t, ?_, hrep'⟩
          rw [Outcome.result_ofWriting]
          exact (bind_of_ok hrun _).trans hprint
      | printFails he =>
          obtain ⟨t, hrun, hrep'⟩ := he.execution hnoted
          exact ⟨t, bind_of_error hrun _, hrep'⟩
  | declare name initializer =>
      have hnoted := hrep.noted (.executing .declare)
      cases h with
      | declare => exact ⟨_, rfl, hnoted.frames.define name.lexeme .nil, hnoted.sink⟩
      | declareValue he =>
          obtain ⟨t, hrun, hrep'⟩ := he.execution hnoted
          exact ⟨_, bind_of_ok hrun _, hrep'.frames.define name.lexeme _, hrep'.sink⟩
      | declareFails he =>
          obtain ⟨t, hrun, hrep'⟩ := he.execution hnoted
          exact ⟨t, bind_of_error hrun _, hrep'⟩
  | block body =>
      have hnoted := hrep.noted (.executing .block)
      have hsize : s.environment.scopes.size = scope + 1 := hrep.frames.size
      cases h with
      | block hbody =>
          -- the new scope comes right behind `scope`, with an empty map in front of the others
          obtain ⟨t, hrun, hrep'⟩ := hbody.run hnoted.entered
          refine ⟨t.exited (scope + 1), ?_, hrep'.exited⟩
          rw [← hsize] at hrun ⊢
          show inScope scope (fun inner => Stmt.executeAll inner body) (s.noted _) = _
          apply inScope_of_outcome
          exact hrun
  | ifThen c st =>
      have hnoted := hrep.noted (.executing .conditional)
      cases h with
      | thenBranch hc hv h =>
          obtain ⟨s₁, hrun, hrep₁⟩ := hc.execution hnoted
          obtain ⟨t, hst, hrep'⟩ := h.run hrep₁
          refine ⟨t, (bind_of_ok hrun _).trans ?_, hrep'⟩
          rw [if_pos (isTruthy_iff.mpr hv)]
          exact hst
      | noBranch hc hv =>
          obtain ⟨s₁, hrun, hrep₁⟩ := hc.execution hnoted
          refine ⟨s₁, (bind_of_ok hrun _).trans ?_, hrep₁⟩
          rw [if_neg (isTruthy_iff.not_left.mpr hv)]
          rfl
      | conditionFails hc =>
          obtain ⟨t, hrun, hrep'⟩ := hc.execution hnoted
          exact ⟨t, bind_of_error hrun _, hrep'⟩
  | ifElse c st st' =>
      have hnoted := hrep.noted (.executing .conditional)
      cases h with
      | firstBranch hc hv h =>
          obtain ⟨s₁, hrun, hrep₁⟩ := hc.execution hnoted
          obtain ⟨t, hst, hrep'⟩ := h.run hrep₁
          refine ⟨t, (bind_of_ok hrun _).trans ?_, hrep'⟩
          rw [if_pos (isTruthy_iff.mpr hv)]
          exact hst
      | secondBranch hc hv h =>
          obtain ⟨s₁, hrun, hrep₁⟩ := hc.execution hnoted
          obtain ⟨t, hst, hrep'⟩ := h.run hrep₁
          refine ⟨t, (bind_of_ok hrun _).trans ?_, hrep'⟩
          rw [if_neg (isTruthy_iff.not_left.mpr hv)]
          exact hst
      | choiceFails hc =>
          obtain ⟨t, hrun, hrep'⟩ := hc.execution hnoted
          exact ⟨t, bind_of_error hrun _, hrep'⟩

theorem Semantics.ExecutesAll.run {ss : List Stmt} {σ σ' : State ω} {o : Outcome}
    (h : ExecutesAll ss σ o σ') {s : Interpreter ω} {scope : Nat} (hrep : s.Represents scope σ) :
    ∃ t, Stmt.executeAll scope ss s = ended o.result t ∧ t.Represents scope σ' := by
  cases ss with
  | nil =>
      cases h
      exact ⟨s, rfl, hrep⟩
  | cons st ss =>
      cases h with
      | cons h hs =>
          obtain ⟨s₁, hrun, hrep₁⟩ := h.run hrep
          obtain ⟨t, hruns, hrep'⟩ := hs.run hrep₁
          exact ⟨t, (bind_of_ok hrun _).trans hruns, hrep'⟩
      | fails h ho =>
          obtain ⟨t, hrun, hrep'⟩ := h.run hrep
          refine ⟨t, ?_, hrep'⟩
          cases o with
          | done => exact absurd rfl ho
          | runtime e => exact bind_of_error hrun _
          | output e => exact bind_of_error hrun _

end

mutual

/-- The semantics says something of every statement in the state of an interpreter, unless its
execution comes upon an operator that does not belong in its node. -/
theorem Stmt.executes_or_misfit (st : Stmt) {s : Interpreter ω} {scope : Nat} {σ : State ω}
    (hrep : s.Represents scope σ) :
    (∃ o σ', Executes st σ o σ') ∨
      ¬st.Fits ∧ ∃ operator t, st.execute scope s = .error (.misfit operator) t := by
  cases st with
  | expression e =>
      have hnoted := hrep.noted (.executing .expression)
      rcases evaluation_or_misfit e hnoted with
          ⟨f, ms', h⟩ | ⟨v, ms', t, h, -, -⟩ | ⟨hfits, operator, t, hrun⟩
      · exact .inl ⟨_, _, .expressionFails h⟩
      · exact .inl ⟨_, _, .expression h⟩
      · exact .inr ⟨hfits, operator, t, bind_of_error hrun _⟩
  | print e =>
      have hnoted := hrep.noted (.executing .print)
      rcases evaluation_or_misfit e hnoted with
          ⟨f, ms', h⟩ | ⟨v, ms', t, h, -, -⟩ | ⟨hfits, operator, t, hrun⟩
      · exact .inl ⟨_, _, .printFails h⟩
      · obtain ⟨r, sink', hp⟩ := exists_prints v.text σ.sink
        exact .inl ⟨_, _, .print h (shows_text v) hp⟩
      · exact .inr ⟨hfits, operator, t, bind_of_error hrun _⟩
  | declare name initializer =>
      have hnoted := hrep.noted (.executing .declare)
      cases initializer with
      | none => exact .inl ⟨_, _, .declare⟩
      | some e =>
          rcases evaluation_or_misfit e hnoted with
              ⟨f, ms', h⟩ | ⟨v, ms', t, h, -, -⟩ | ⟨hfits, operator, t, hrun⟩
          · exact .inl ⟨_, _, .declareFails h⟩
          · exact .inl ⟨_, _, .declareValue h⟩
          · exact .inr ⟨fun h => hfits (h e rfl), operator, t, bind_of_error hrun _⟩
  | block body =>
      have hnoted := hrep.noted (.executing .block)
      have hsize : s.environment.scopes.size = scope + 1 := hrep.frames.size
      rcases Stmt.executesAll_or_misfit body hnoted.entered with
          ⟨o, ⟨ms', sink'⟩, h⟩ | ⟨hfits, operator, t, hrun⟩
      · obtain ⟨t, -, hrep'⟩ := h.run hnoted.entered
        -- the map of the block is still in front
        have hframes : ms' = _ :: _ := hrep'.frames.frames.symm
        subst hframes
        exact .inl ⟨o, _, .block h⟩
      · refine .inr ⟨hfits, operator, t, ?_⟩
        rw [← hsize] at hrun
        show inScope scope (fun inner => Stmt.executeAll inner body) (s.noted _) = _
        apply inScope_of_misfit
        exact hrun
  | ifThen c st =>
      have hnoted := hrep.noted (.executing .conditional)
      rcases evaluation_or_misfit c hnoted with
          ⟨f, ms', h⟩ | ⟨v, ms', s₁, h, hrun₁, hrep₁⟩ | ⟨hfits, operator, t, hrun⟩
      · exact .inl ⟨_, _, .conditionFails h⟩
      · by_cases hv : v.isTruthy
        · rcases st.executes_or_misfit hrep₁ with ⟨o, σ', hst⟩ | ⟨hfits, operator, t, hrun⟩
          · exact .inl ⟨o, σ', .thenBranch h (isTruthy_iff.mp hv) hst⟩
          · refine .inr ⟨fun h => hfits h.2, operator, t, (bind_of_ok hrun₁ _).trans ?_⟩
            rw [if_pos hv]
            exact hrun
        · exact .inl ⟨_, _, .noBranch h (isTruthy_iff.not_left.mp hv)⟩
      · exact .inr ⟨fun h => hfits h.1, operator, t, bind_of_error hrun _⟩
  | ifElse c st st' =>
      have hnoted := hrep.noted (.executing .conditional)
      rcases evaluation_or_misfit c hnoted with
          ⟨f, ms', h⟩ | ⟨v, ms', s₁, h, hrun₁, hrep₁⟩ | ⟨hfits, operator, t, hrun⟩
      · exact .inl ⟨_, _, .choiceFails h⟩
      · by_cases hv : v.isTruthy
        · rcases st.executes_or_misfit hrep₁ with ⟨o, σ', hst⟩ | ⟨hfits, operator, t, hrun⟩
          · exact .inl ⟨o, σ', .firstBranch h (isTruthy_iff.mp hv) hst⟩
          · refine .inr ⟨fun h => hfits h.2.1, operator, t, (bind_of_ok hrun₁ _).trans ?_⟩
            rw [if_pos hv]
            exact hrun
        · rcases st'.executes_or_misfit hrep₁ with ⟨o, σ', hst⟩ | ⟨hfits, operator, t, hrun⟩
          · exact .inl ⟨o, σ', .secondBranch h (isTruthy_iff.not_left.mp hv) hst⟩
          · refine .inr ⟨fun h => hfits h.2.2, operator, t, (bind_of_ok hrun₁ _).trans ?_⟩
            rw [if_neg hv]
            exact hrun
      · exact .inr ⟨fun h => hfits h.1, operator, t, bind_of_error hrun _⟩

theorem Stmt.executesAll_or_misfit (ss : List Stmt) {s : Interpreter ω} {scope : Nat}
    {σ : State ω} (hrep : s.Represents scope σ) :
    (∃ o σ', ExecutesAll ss σ o σ') ∨
      ¬AllFit ss ∧ ∃ operator t, executeAll scope ss s = .error (.misfit operator) t := by
  cases ss with
  | nil => exact .inl ⟨_, _, .nil⟩
  | cons st ss =>
      rcases st.executes_or_misfit hrep with ⟨o, σ', h⟩ | ⟨hfits, operator, t, hrun⟩
      · by_cases ho : o = .done
        · subst ho
          obtain ⟨s₁, hrun₁, hrep₁⟩ := h.run hrep
          rcases executesAll_or_misfit ss hrep₁ with ⟨o, σ'', hs⟩ | ⟨hfits, operator, t, hrun⟩
          · exact .inl ⟨o, σ'', .cons h hs⟩
          · exact .inr ⟨fun h => hfits h.2, operator, t, (bind_of_ok hrun₁ _).trans hrun⟩
        · exact .inl ⟨o, σ', .fails h ho⟩
      · exact .inr ⟨fun h => hfits h.1, operator, t, bind_of_error hrun _⟩

end

/-- The semantics says something of statements that fit. -/
theorem Stmt.AllFit.exists_executesAll {ss : List Stmt} (h : AllFit ss) {s : Interpreter ω}
    {scope : Nat} {σ : State ω} (hrep : s.Represents scope σ) :
    ∃ o σ', ExecutesAll ss σ o σ' := by
  rcases Stmt.executesAll_or_misfit ss hrep with hex | ⟨hmisfit, -⟩
  · exact hex
  · exact absurd h hmisfit

end Statements

end Lox
