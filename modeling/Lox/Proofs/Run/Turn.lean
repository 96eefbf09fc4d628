import Mathlib.Tactic
import Lox.Proofs.Run.Scopes

set_option autoImplicit false

/-! # The turns of a run

While a program runs, every statement that is executed has its turn, and so has the end of every
list of statements that is executed to its end (`Stmt.HaveTurn`). A turn of a statement consists of
what the statement does itself, without what the statements inside it do, and of the failure that
ends it, if one does (`Turn.Passes`). Each moment of a run is in one of its turns
(`Interpreter.Visits.isIn`).

Where the turns are in a program can be told without running it (`Stmt.StandAll`).
-/

namespace Lox

open Semantics Execution

variable {ω : Type}

/-! ## Places in a program -/

namespace Stmt

mutual

/-- `Stands p st q next`: the statement `st` stands at the place `p`, and in it or inside it the
statement `next` stands at the place `q`. No statement stands behind the last one of a list. -/
inductive Stands : Place → Stmt → Place → Option Stmt → Prop
  | here {p : Place} {st : Stmt} : Stands p st p (some st)
  | inside {p q : Place} {body : List Stmt} {next : Option Stmt}
      (h : StandAll p.enter body q next) : Stands p (.block body) q next
  | thenBranch {p q : Place} {c : Expr} {st : Stmt} {next : Option Stmt}
      (h : Stands p st q next) : Stands p (.ifThen c st) q next
  | firstBranch {p q : Place} {c : Expr} {st st' : Stmt} {next : Option Stmt}
      (h : Stands p st q next) : Stands p (.ifElse c st st') q next
  | secondBranch {p q : Place} {c : Expr} {st st' : Stmt} {next : Option Stmt}
      (h : Stands p st' q next) : Stands p (.ifElse c st st') q next

/-- The same of several statements, the first of which stands at the place `p`. -/
inductive StandAll : Place → List Stmt → Place → Option Stmt → Prop
  | nil {p : Place} : StandAll p [] p none
  | here {p q : Place} {st : Stmt} {ss : List Stmt} {next : Option Stmt}
      (h : Stands p st q next) : StandAll p (st :: ss) q next
  | later {p q : Place} {st : Stmt} {ss : List Stmt} {next : Option Stmt}
      (h : StandAll (p.behind st) ss q next) : StandAll p (st :: ss) q next

end

end Stmt

/-! ## Turns -/

/-- Evaluating passes through the environment that it ends with. -/
theorem Expr.passes_of_evaluation {e : Expr} {scope : Nat} {s t : Interpreter ω} {event : Event}
    {v : Value} (h : ofEvaluation (e.evaluate scope) (s.noted event) = .ok v t) :
    e.Passes scope s.environment t.environment := by
  unfold ofEvaluation at h
  split at h
  · next hrun =>
    cases h
    exact .finish (r := .ok v) hrun
  · cases h

/-- Writing leaves the environment as it is. -/
theorem environment_ofWriting {α : Type} {m : EStateM WriteError ω α} {s t : Interpreter ω}
    {a : α} (h : ofWriting m s = .ok a t) : t.environment = s.environment := by
  unfold ofWriting at h
  split at h
  · cases h
    rfl
  · cases h

/-- A turn in a run: the place that the run has come to, the current scope, the statement that is
next unless the list is at its end, and the interpreter at the start of the turn. -/
structure Turn (ω : Type) where
  place : Place
  scope : Nat
  statement : Option Stmt
  interpreter : Interpreter ω

variable [Writer ω]

/-- The environments in a turn: at the start, while the statement evaluates its expression, and
when it has failed. -/
inductive Turn.Passes (turn : Turn ω) : Environment → Prop
  | start : turn.Passes turn.interpreter.environment
  | evaluating {st : Stmt} {e : Expr} {env : Environment} (hst : turn.statement = some st)
      (he : st.evaluated? = some e)
      (h : e.Passes turn.scope turn.interpreter.environment env) : turn.Passes env
  | failed {st : Stmt} {o : Outcome} {t : Interpreter ω} (hst : turn.statement = some st)
      (h : st.execute turn.scope turn.interpreter = ended o.result t) (ho : o ≠ .done) :
      turn.Passes t.environment

namespace Stmt

mutual

/-- `HasTurn p scope st s turn`: while the statement `st` at the place `p` is executed in the scope
`scope`, from the interpreter `s` on, the turn `turn` comes, of this statement or of one inside. -/
inductive HasTurn : Place → Nat → Stmt → Interpreter ω → Turn ω → Prop
  | here {p : Place} {scope : Nat} {st : Stmt} {s : Interpreter ω} :
      HasTurn p scope st s ⟨p, scope, some st, s⟩
  | inside {p : Place} {scope : Nat} {body : List Stmt} {s : Interpreter ω} {turn : Turn ω}
      (h : HaveTurn p.enter s.environment.scopes.size body
        ((s.noted (.executing .block)).entered scope) turn) :
      HasTurn p scope (.block body) s turn
  | thenBranch {p : Place} {scope : Nat} {c : Expr} {st : Stmt} {v : Value} {s t : Interpreter ω}
      {turn : Turn ω}
      (hc : ofEvaluation (c.evaluate scope) (s.noted (.executing .conditional)) = .ok v t)
      (hv : v.isTruthy) (h : HasTurn p scope st t turn) : HasTurn p scope (.ifThen c st) s turn
  | firstBranch {p : Place} {scope : Nat} {c : Expr} {st st' : Stmt} {v : Value}
      {s t : Interpreter ω} {turn : Turn ω}
      (hc : ofEvaluation (c.evaluate scope) (s.noted (.executing .conditional)) = .ok v t)
      (hv : v.isTruthy) (h : HasTurn p scope st t turn) :
      HasTurn p scope (.ifElse c st st') s turn
  | secondBranch {p : Place} {scope : Nat} {c : Expr} {st st' : Stmt} {v : Value}
      {s t : Interpreter ω} {turn : Turn ω}
      (hc : ofEvaluation (c.evaluate scope) (s.noted (.executing .conditional)) = .ok v t)
      (hv : v.isTruthy = false) (h : HasTurn p scope st' t turn) :
      HasTurn p scope (.ifElse c st st') s turn

/-- The turns of several statements, and the one behind the last of them. -/
inductive HaveTurn : Place → Nat → List Stmt → Interpreter ω → Turn ω → Prop
  | nil {p : Place} {scope : Nat} {s : Interpreter ω} : HaveTurn p scope [] s ⟨p, scope, none, s⟩
  | here {p : Place} {scope : Nat} {st : Stmt} {ss : List Stmt} {s : Interpreter ω}
      {turn : Turn ω} (h : HasTurn p scope st s turn) : HaveTurn p scope (st :: ss) s turn
  | later {p : Place} {scope : Nat} {st : Stmt} {ss : List Stmt} {s t : Interpreter ω}
      {turn : Turn ω} (h : st.execute scope s = .ok () t)
      (hs : HaveTurn (p.behind st) scope ss t turn) : HaveTurn p scope (st :: ss) s turn

end

mutual

/-- A turn comes where its statement stands. -/
theorem HasTurn.stands {p : Place} {scope : Nat} {st : Stmt} {s : Interpreter ω} {turn : Turn ω} :
    HasTurn p scope st s turn → Stands p st turn.place turn.statement
  | .here => .here
  | .inside h => .inside h.stand
  | .thenBranch _ _ h => .thenBranch h.stands
  | .firstBranch _ _ h => .firstBranch h.stands
  | .secondBranch _ _ h => .secondBranch h.stands

theorem HaveTurn.stand {p : Place} {scope : Nat} {ss : List Stmt} {s : Interpreter ω}
    {turn : Turn ω} : HaveTurn p scope ss s turn → StandAll p ss turn.place turn.statement
  | .nil => .nil
  | .here h => .here h.stands
  | .later _ hs => .later hs.stand

end

end Stmt

/-! ## Moments are in turns -/

/-- The moment is in the turn: in the same list of statements and the same scope, with an
environment that the turn passes through. -/
structure Moment.IsIn (m : Moment ω) (turn : Turn ω) : Prop where
  around : turn.place.around = m.place.around
  scope : turn.scope = m.scope
  passes : turn.Passes m.interpreter.environment

namespace Stmt

/-- At the start of several statements, the turn of the first of them comes. -/
theorem exists_turn (p : Place) (scope : Nat) (ss : List Stmt) (s : Interpreter ω) :
    ∃ turn, HaveTurn p scope ss s turn ∧
      ∀ m : Moment ω, m.place.around = p.around → m.scope = scope →
        m.interpreter.environment = s.environment → m.IsIn turn := by
  cases ss with
  | nil =>
      refine ⟨_, .nil, fun m haround hscope henv => ⟨haround.symm, hscope.symm, ?_⟩⟩
      rw [henv]
      exact .start
  | cons st ss =>
      refine ⟨_, .here .here, fun m haround hscope henv => ⟨haround.symm, hscope.symm, ?_⟩⟩
      rw [henv]
      exact .start

mutual

/-- Every moment of a statement is in a turn, unless it is the one when the statement is done. -/
theorem Visits.isIn {p : Place} {scope : Nat} {st : Stmt} {s : Interpreter ω} {m : Moment ω}
    (h : Visits p scope st s m) :
    (∃ turn, HasTurn p scope st s turn ∧ m.IsIn turn) ∨
      m.place = p ∧ m.scope = scope ∧ st.execute scope s = .ok () m.interpreter := by
  cases h with
  | start => exact .inl ⟨_, .here, rfl, rfl, .start⟩
  | noted => exact .inl ⟨_, .here, rfl, rfl, .start⟩
  | evaluating he h => exact .inl ⟨_, .here, rfl, rfl, .evaluating rfl he h⟩
  | writing h _ =>
      have hpasses := Expr.passes_of_evaluation h
      exact .inl ⟨_, .here, rfl, rfl, .evaluating rfl rfl hpasses⟩
  | endingLine h ht _ =>
      have hpasses := Expr.passes_of_evaluation h
      rw [← environment_ofWriting ht] at hpasses
      exact .inl ⟨_, .here, rfl, rfl, .evaluating rfl rfl hpasses⟩
  | @opening _ _ body =>
      -- the block is at the start of its own statements
      obtain ⟨turn, hturn, hin⟩ := exists_turn p.enter s.environment.scopes.size body
        ((s.noted (.executing .block)).entered scope)
      exact .inl ⟨turn, .inside hturn, hin _ rfl rfl rfl⟩
  | inside h =>
      obtain ⟨turn, hturn, hin⟩ := h.isIn
      exact .inl ⟨turn, .inside hturn, hin⟩
  | closing h _ =>
      obtain ⟨turn, hturn, hin⟩ := h.isIn
      exact .inl ⟨turn, .inside hturn, hin.around, hin.scope, hin.passes⟩
  | thenBranch hc hv h =>
      rcases h.isIn with ⟨turn, hturn, hin⟩ | ⟨hp, hscope, hrun⟩
      · exact .inl ⟨turn, .thenBranch hc hv hturn, hin⟩
      · refine .inr ⟨hp, hscope, (bind_of_ok hc _).trans ?_⟩
        rw [if_pos hv]
        exact hrun
  | firstBranch hc hv h =>
      rcases h.isIn with ⟨turn, hturn, hin⟩ | ⟨hp, hscope, hrun⟩
      · exact .inl ⟨turn, .firstBranch hc hv hturn, hin⟩
      · refine .inr ⟨hp, hscope, (bind_of_ok hc _).trans ?_⟩
        rw [if_pos hv]
        exact hrun
  | secondBranch hc hv h =>
      rcases h.isIn with ⟨turn, hturn, hin⟩ | ⟨hp, hscope, hrun⟩
      · exact .inl ⟨turn, .secondBranch hc hv hturn, hin⟩
      · refine .inr ⟨hp, hscope, (bind_of_ok hc _).trans ?_⟩
        rw [if_neg (by simp [hv])]
        exact hrun
  | @finish _ _ _ _ t o h =>
      by_cases ho : o = .done
      · subst ho
        exact .inr ⟨rfl, rfl, h⟩
      · exact .inl ⟨_, .here, rfl, rfl, .failed rfl h ho⟩

/-- Every moment of several statements is in a turn. When a statement is done, the turn of the next
one has come. -/
theorem VisitsAll.isIn {p : Place} {scope : Nat} {ss : List Stmt} {s : Interpreter ω}
    {m : Moment ω} (h : VisitsAll p scope ss s m) :
    ∃ turn, HaveTurn p scope ss s turn ∧ m.IsIn turn := by
  cases h with
  | nil => exact ⟨_, .nil, rfl, rfl, .start⟩
  | @here _ _ st ss _ _ h =>
      rcases h.isIn with ⟨turn, hturn, hin⟩ | ⟨hp, hscope, hrun⟩
      · exact ⟨turn, .here hturn, hin⟩
      · obtain ⟨turn, hturn, hin⟩ := exists_turn (p.behind st) scope ss m.interpreter
        have haround : m.place.around = p.around := by rw [hp]
        exact ⟨turn, .later hrun hturn, hin m haround hscope rfl⟩
  | later h hs =>
      obtain ⟨turn, hturn, hin⟩ := hs.isIn
      exact ⟨turn, .later h hturn, hin⟩

end

/-- When several statements are over, this is in a turn. -/
theorem exists_last_turn {ss : List Stmt} {p : Place} {scope : Nat} {s t : Interpreter ω}
    {o : Outcome} (h : executeAll scope ss s = ended o.result t) :
    ∃ turn, HaveTurn p scope ss s turn ∧
      ∀ m : Moment ω, m.place.around = p.around → m.scope = scope →
        m.interpreter.environment = t.environment → m.IsIn turn := by
  induction ss generalizing p s with
  | nil =>
      obtain ⟨-, rfl⟩ := ended_eq_ok.mp h.symm
      exact exists_turn p scope [] t
  | cons st ss ih =>
      rw [executeAll_cons] at h
      rcases bind_ended h with ⟨_, s₁, hst, hss⟩ | ⟨f, hst, ho⟩
      · obtain ⟨turn, hturn, hin⟩ := ih (p := p.behind st) hss
        exact ⟨turn, .later hst hturn, hin⟩
      · -- the turn of the statement that failed
        have hrun : st.execute scope s = ended o.result t := by rw [hst, ho, ended]
        have hne : o ≠ .done := by
          rintro rfl
          cases ho
        refine ⟨_, .here .here, fun m haround hscope henv => ⟨haround.symm, hscope.symm, ?_⟩⟩
        rw [henv]
        exact .failed rfl hrun hne

end Stmt

/-- Every moment of a call is in one of its turns. -/
theorem Interpreter.Visits.isIn {ss : List Stmt} {s : Interpreter ω} {m : Moment ω}
    (h : Interpreter.Visits ss s m) :
    ∃ turn, Stmt.HaveTurn .top Environment.global ss s turn ∧ m.IsIn turn := by
  cases h with
  | inside h => exact h.isIn
  | @finish t o h =>
      obtain ⟨u, hrun, ht⟩ := executeAll_of_interpret h
      have henv : t.environment = u.environment := by
        rcases ht with rfl | ⟨f, rfl⟩
        · rfl
        · rfl
      obtain ⟨turn, hturn, hin⟩ := Stmt.exists_last_turn (p := .top) hrun
      exact ⟨turn, hturn, hin _ rfl rfl henv⟩

end Lox
