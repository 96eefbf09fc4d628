import Mathlib.Tactic
import Lox.Proofs.Run.Names
import Lox.Proofs.Run.Refinement

set_option autoImplicit false

/-! # The moments of a run

A run passes through more states than those between its statements: the operands of an expression
are evaluated one after the other, a text is written bit by bit, and a block has statements of its
own. `Stmt.Visits` and `Interpreter.Visits` relate a run to all the moments that it passes through,
each with the blocks that are being executed and the scope that is current.

At every moment the interpreter is in a state of the semantics, and the current scope is as deep as
blocks are being executed (`Interpreter.Visits.represents`).
-/

namespace Lox

open Semantics Execution

variable {ω : Type}

/-! ## Expressions -/

namespace Expr

/-- `Passes scope e env env'`: while the expression `e` is evaluated in the scope `scope`, from the
environment `env` on, the environment at some time is `env'`. -/
inductive Passes (scope : Nat) : Expr → Environment → Environment → Prop
  | start {e : Expr} {env : Environment} : Passes scope e env env
  | grouping {inner : Expr} {env env' : Environment} (h : Passes scope inner env env') :
      Passes scope (.grouping inner) env env'
  | operand {operator : Token} {operand : Expr} {env env' : Environment}
      (h : Passes scope operand env env') : Passes scope (.unary operator operand) env env'
  | left {left right : Expr} {operator : Token} {env env' : Environment}
      (h : Passes scope left env env') : Passes scope (.binary left operator right) env env'
  | right {left right : Expr} {operator : Token} {v : Value} {env env₁ env' : Environment}
      (hl : left.evaluate scope env = .ok v env₁) (h : Passes scope right env₁ env') :
      Passes scope (.binary left operator right) env env'
  | first {left right : Expr} {operator : Token} {env env' : Environment}
      (h : Passes scope left env env') : Passes scope (.logical left operator right) env env'
  | second {left right : Expr} {operator : Token} {v : Value} {env env₁ env' : Environment}
      (hl : left.evaluate scope env = .ok v env₁) (hd : operator.decides v = .ok false)
      (h : Passes scope right env₁ env') : Passes scope (.logical left operator right) env env'
  | value {name : Token} {value : Expr} {env env' : Environment}
      (h : Passes scope value env env') : Passes scope (.assign name value) env env'
  | finish {e : Expr} {r : Except RuntimeError Value} {env env' : Environment}
      (h : e.evaluate scope env = ended (r.mapError .runtime) env') : Passes scope e env env'

end Expr

/-- Runtime errors stay apart as failures. -/
theorem mapError_runtime_inj {α : Type} {r r' : Except RuntimeError α} :
    r.mapError Failure.runtime = r'.mapError .runtime ↔ r = r' := by
  cases r <;> cases r' <;> simp [Except.mapError]

/-- What evaluating comes to in an environment is what the semantics says of its maps. -/
theorem Environment.Represents.evaluated {env env' : Environment} {scope : Nat} {ms : Frames}
    (hrep : env.Represents scope ms) {e : Expr} {r : Except RuntimeError Value}
    (h : e.evaluate scope env = ended (r.mapError .runtime) env') :
    ∃ ms', Evaluates e ms r ms' ∧ env'.Represents scope ms' := by
  rcases e.evaluates_or_misfit hrep with ⟨r', ms', hev⟩ | ⟨-, operator, env₁, hrun⟩
  · obtain ⟨env₁, hrun, hrep'⟩ := hev.run hrep
    obtain ⟨hr, rfl⟩ := ended_inj.mp (h.symm.trans hrun)
    obtain rfl := mapError_runtime_inj.mp hr
    exact ⟨ms', hev, hrep'⟩
  · rw [hrun] at h
    cases r <;> cases h

/-- While an expression is evaluated, no new name is bound. -/
theorem Expr.Passes.represents {scope : Nat} {e : Expr} {env env' : Environment} {ms : Frames}
    (h : Expr.Passes scope e env env') (hrep : env.Represents scope ms) :
    ∃ ms', ms.SameNames ms' ∧ env'.Represents scope ms' := by
  have hleft : ∀ {left : Expr} {v : Value} {env env₁ : Environment} {ms : Frames},
      env.Represents scope ms → left.evaluate scope env = .ok v env₁ →
      ∃ ms₁, Evaluates left ms (.ok v) ms₁ ∧ env₁.Represents scope ms₁ :=
    fun hrep hl => hrep.evaluated (r := .ok _) hl
  induction h generalizing ms with
  | start => exact ⟨ms, .refl ms, hrep⟩
  | grouping _ ih | operand _ ih | left _ ih | first _ ih | value _ ih => exact ih hrep
  | right hl _ ih | second hl _ _ ih =>
      obtain ⟨ms₁, hev, hrep₁⟩ := hleft hrep hl
      obtain ⟨ms', hsame, hrep'⟩ := ih hrep₁
      exact ⟨ms', hev.sameNames.trans hsame, hrep'⟩
  | finish h =>
      obtain ⟨ms', hev, hrep'⟩ := hrep.evaluated h
      exact ⟨ms', hev.sameNames, hrep'⟩

/-! ## Writing -/

/-- `Passes bytes sink sink'`: while the bytes are written, from the sink `sink` on, the sink at
some time is `sink'`. -/
inductive Writer.Passes [Writer ω] : List UInt8 → ω → ω → Prop
  | start {bytes : List UInt8} {sink : ω} : Passes bytes sink sink
  | offered {bytes : List UInt8} {sink sink' : ω} {w : Written} (hne : bytes ≠ [])
      (h : Writer.write bytes sink = (w, sink')) : Passes bytes sink sink'
  | later {bytes : List UInt8} {sink sink₁ sink' : ω} {n : Nat} (hne : bytes ≠ [])
      (h : Writer.write bytes sink = (.took n, sink₁)) (hn : n ≠ 0)
      (hs : Passes (bytes.drop n) sink₁ sink') : Passes bytes sink sink'

/-! ## Statements -/

/-- A place in a program that is being executed: the statements that are done of the list that is
being executed, and the same for each list around it, from the inside out. -/
structure Place where
  done : List Stmt
  around : List (List Stmt)

namespace Place

/-- Where a program begins. -/
def top : Place := ⟨[], []⟩

/-- Where a block begins. -/
def enter (p : Place) : Place := ⟨[], p.done :: p.around⟩

/-- The place behind a statement. -/
def behind (p : Place) (st : Stmt) : Place := ⟨p.done ++ [st], p.around⟩

/-- How many blocks are being executed. -/
def depth (p : Place) : Nat := p.around.length

end Place

/-- A moment of a run: the place that the run has come to, the current scope, and the
interpreter. -/
structure Moment (ω : Type) where
  place : Place
  scope : Nat
  interpreter : Interpreter ω

namespace Stmt

/-- The expression that a statement itself evaluates. -/
def evaluated? : Stmt → Option Expr
  | expression e | print e | ifThen e _ | ifElse e _ _ => some e
  | declare _ initializer => initializer
  | block _ => none

variable [Writer ω]

mutual

/-- `Visits p scope st s m`: while the statement `st` at the place `p` is executed in the scope
`scope`, from the interpreter `s` on, the run passes through the moment `m`. -/
inductive Visits : Place → Nat → Stmt → Interpreter ω → Moment ω → Prop
  | start {p : Place} {scope : Nat} {st : Stmt} {s : Interpreter ω} :
      Visits p scope st s ⟨p, scope, s⟩
  | noted {p : Place} {scope : Nat} {st : Stmt} {s : Interpreter ω} :
      Visits p scope st s ⟨p, scope, s.noted (.executing st.form)⟩
  | evaluating {p : Place} {scope : Nat} {st : Stmt} {s : Interpreter ω} {e : Expr}
      {env : Environment} (he : st.evaluated? = some e) (h : e.Passes scope s.environment env) :
      Visits p scope st s
        ⟨p, scope, { s.noted (.executing st.form) with environment := env }⟩
  | writing {p : Place} {scope : Nat} {e : Expr} {v : Value} {s t : Interpreter ω} {sink : ω}
      (h : ofEvaluation (e.evaluate scope) (s.noted (.executing .print)) = .ok v t)
      (hw : Writer.Passes (bytesOf v.text) t.output sink) :
      Visits p scope (.print e) s ⟨p, scope, { t with output := sink }⟩
  | endingLine {p : Place} {scope : Nat} {e : Expr} {v : Value} {s t u : Interpreter ω} {sink : ω}
      (h : ofEvaluation (e.evaluate scope) (s.noted (.executing .print)) = .ok v t)
      (ht : ofWriting (Writer.writeText v.text) t = .ok () u)
      (hw : Writer.Passes (bytesOf "\n") u.output sink) :
      Visits p scope (.print e) s ⟨p, scope, { u with output := sink }⟩
  | opening {p : Place} {scope : Nat} {body : List Stmt} {s : Interpreter ω} :
      Visits p scope (.block body) s ⟨p.enter, s.environment.scopes.size,
        { s.noted (.executing .block) with environment := s.environment.openScope scope }⟩
  | inside {p : Place} {scope : Nat} {body : List Stmt} {s : Interpreter ω} {m : Moment ω}
      (h : VisitsAll p.enter s.environment.scopes.size body
        ((s.noted (.executing .block)).entered scope) m) :
      Visits p scope (.block body) s m
  | closing {p p' : Place} {scope : Nat} {body : List Stmt} {s t : Interpreter ω} {o : Outcome}
      (h : VisitsAll p.enter s.environment.scopes.size body
        ((s.noted (.executing .block)).entered scope) ⟨p', s.environment.scopes.size, t⟩)
      (hend : executeAll s.environment.scopes.size body
        ((s.noted (.executing .block)).entered scope) = ended o.result t) :
      Visits p scope (.block body) s
        ⟨p', s.environment.scopes.size, t.noted (.closed s.environment.scopes.size)⟩
  | thenBranch {p : Place} {scope : Nat} {c : Expr} {st : Stmt} {v : Value} {s t : Interpreter ω}
      {m : Moment ω}
      (hc : ofEvaluation (c.evaluate scope) (s.noted (.executing .conditional)) = .ok v t)
      (hv : v.isTruthy) (h : Visits p scope st t m) : Visits p scope (.ifThen c st) s m
  | firstBranch {p : Place} {scope : Nat} {c : Expr} {st st' : Stmt} {v : Value}
      {s t : Interpreter ω} {m : Moment ω}
      (hc : ofEvaluation (c.evaluate scope) (s.noted (.executing .conditional)) = .ok v t)
      (hv : v.isTruthy) (h : Visits p scope st t m) : Visits p scope (.ifElse c st st') s m
  | secondBranch {p : Place} {scope : Nat} {c : Expr} {st st' : Stmt} {v : Value}
      {s t : Interpreter ω} {m : Moment ω}
      (hc : ofEvaluation (c.evaluate scope) (s.noted (.executing .conditional)) = .ok v t)
      (hv : v.isTruthy = false) (h : Visits p scope st' t m) :
      Visits p scope (.ifElse c st st') s m
  | finish {p : Place} {scope : Nat} {st : Stmt} {s t : Interpreter ω} {o : Outcome}
      (h : st.execute scope s = ended o.result t) : Visits p scope st s ⟨p, scope, t⟩

/-- The moments of a run through several statements. -/
inductive VisitsAll : Place → Nat → List Stmt → Interpreter ω → Moment ω → Prop
  | nil {p : Place} {scope : Nat} {s : Interpreter ω} : VisitsAll p scope [] s ⟨p, scope, s⟩
  | here {p : Place} {scope : Nat} {st : Stmt} {ss : List Stmt} {s : Interpreter ω} {m : Moment ω}
      (h : Visits p scope st s m) : VisitsAll p scope (st :: ss) s m
  | later {p : Place} {scope : Nat} {st : Stmt} {ss : List Stmt} {s t : Interpreter ω}
      {m : Moment ω} (h : st.execute scope s = .ok () t)
      (hs : VisitsAll (p.behind st) scope ss t m) : VisitsAll p scope (st :: ss) s m

end

end Stmt

/-- The moments of a call, and the one after it. -/
inductive Interpreter.Visits [Writer ω] (ss : List Stmt) (s : Interpreter ω) : Moment ω → Prop
  | inside {m : Moment ω} (h : Stmt.VisitsAll .top Environment.global ss s m) : Visits ss s m
  | finish {t : Interpreter ω} {o : Outcome} (h : interpret ss s = ended o.result t) :
      Visits ss s ⟨.top, Environment.global, t⟩

/-! ## The state at a moment -/

namespace Interpreter.Represents

variable {s t : Interpreter ω} {scope : Nat} {σ : State ω}

theorem evaluated (hrep : s.Represents scope σ) {e : Expr} {r : Except RuntimeError Value}
    (h : ofEvaluation (e.evaluate scope) s = ended (r.mapError .runtime) t) :
    ∃ ms, Evaluates e σ.frames r ms ∧ t.Represents scope ⟨ms, σ.sink⟩ := by
  rcases e.evaluates_or_misfit hrep.frames with ⟨r', ms, hev⟩ | ⟨-, operator, env, hrun⟩
  · obtain ⟨t', hrun, hrep'⟩ := hev.execution hrep
    obtain ⟨hr, rfl⟩ := ended_inj.mp (h.symm.trans hrun)
    obtain rfl := mapError_runtime_inj.mp hr
    exact ⟨ms, hev, hrep'⟩
  · rw [ofEvaluation, hrun] at h
    cases r <;> cases h

theorem wrote [Writer ω] (hrep : s.Represents scope σ) {text : String}
    {r : Except Failure Unit} (h : ofWriting (Writer.writeText text) s = ended r t) :
    ∃ sink, t.Represents scope ⟨σ.frames, sink⟩ := by
  obtain ⟨r', sink', hw⟩ := exists_writes (bytesOf text) σ.sink
  have hrep : s.Represents scope ⟨σ.frames, σ.sink⟩ := hrep
  obtain ⟨t', hrun, hrep'⟩ := hw.execution hrep
  obtain ⟨-, rfl⟩ := ended_inj.mp (h.symm.trans hrun)
  exact ⟨sink', hrep'⟩

theorem executed [Writer ω] (hrep : s.Represents scope σ) {st : Stmt} {o : Outcome}
    (h : st.execute scope s = ended o.result t) :
    ∃ σ', Executes st σ o σ' ∧ t.Represents scope σ' := by
  rcases st.executes_or_misfit hrep with ⟨o', σ', hex⟩ | ⟨-, operator, t', hrun⟩
  · obtain ⟨t', hrun, hrep'⟩ := hex.run hrep
    obtain ⟨ho, rfl⟩ := ended_inj.mp (h.symm.trans hrun)
    obtain rfl := Outcome.result_inj.mp ho
    exact ⟨σ', hex, hrep'⟩
  · exact absurd (h.symm.trans hrun) Outcome.ended_ne_misfit

end Interpreter.Represents

namespace Stmt

variable [Writer ω]

mutual

/-- At every moment of a statement, the interpreter is in a state of the semantics, and its current
scope is as deep as blocks are being executed. -/
theorem Visits.represents {p : Place} {scope : Nat} {st : Stmt} {s : Interpreter ω} {m : Moment ω}
    {σ : State ω} (h : Visits p scope st s m) (hrep : s.Represents scope σ)
    (hp : scope = p.depth) :
    (∃ σ', m.interpreter.Represents m.scope σ') ∧ m.scope = m.place.depth := by
  have hsize : s.environment.scopes.size = scope + 1 := hrep.frames.size
  have hentered : s.environment.scopes.size = p.enter.depth := by
    show _ = p.depth + 1
    rw [hsize, hp]
  -- the interpreter that a block starts on
  have hblock : ((s.noted (.executing .block)).entered scope).Represents
      s.environment.scopes.size ⟨∅ :: σ.frames, σ.sink⟩ := by
    rw [hsize]
    exact (hrep.noted (.executing .block)).entered
  cases h with
  | start => exact ⟨⟨σ, hrep⟩, hp⟩
  | noted => exact ⟨⟨σ, hrep.noted _⟩, hp⟩
  | evaluating _ he =>
      obtain ⟨ms, -, hms⟩ := he.represents hrep.frames
      exact ⟨⟨⟨ms, σ.sink⟩, hms, hrep.sink⟩, hp⟩
  | @writing _ _ _ v _ t sink hev _ =>
      obtain ⟨ms, -, hms⟩ := (hrep.noted (.executing .print)).evaluated (r := .ok v) hev
      exact ⟨⟨⟨ms, sink⟩, hms.frames, rfl⟩, hp⟩
  | @endingLine _ _ _ v _ t u sink hev ht _ =>
      obtain ⟨ms, -, hms⟩ := (hrep.noted (.executing .print)).evaluated (r := .ok v) hev
      obtain ⟨sink', hsink⟩ := hms.wrote (r := .ok ()) ht
      exact ⟨⟨⟨ms, sink⟩, hsink.frames, rfl⟩, hp⟩
  | opening => exact ⟨⟨_, hblock.frames, hblock.sink⟩, hentered⟩
  | inside h => exact h.represents hblock hentered
  | closing h _ =>
      obtain ⟨⟨σ', hrep'⟩, hdepth⟩ := h.represents hblock hentered
      exact ⟨⟨σ', hrep'.noted _⟩, hdepth⟩
  | @thenBranch _ _ _ _ v _ _ _ hc _ h | @firstBranch _ _ _ _ _ v _ _ _ hc _ h
  | @secondBranch _ _ _ _ _ v _ _ _ hc _ h =>
      obtain ⟨ms, -, hms⟩ := (hrep.noted (.executing .conditional)).evaluated (r := .ok v) hc
      exact h.represents hms hp
  | finish h =>
      obtain ⟨σ', -, hrep'⟩ := hrep.executed h
      exact ⟨⟨σ', hrep'⟩, hp⟩

theorem VisitsAll.represents {p : Place} {scope : Nat} {ss : List Stmt} {s : Interpreter ω}
    {m : Moment ω} {σ : State ω} (h : VisitsAll p scope ss s m) (hrep : s.Represents scope σ)
    (hp : scope = p.depth) :
    (∃ σ', m.interpreter.Represents m.scope σ') ∧ m.scope = m.place.depth := by
  cases h with
  | nil => exact ⟨⟨σ, hrep⟩, hp⟩
  | here h => exact h.represents hrep hp
  | later h hs =>
      obtain ⟨σ', -, hrep'⟩ := hrep.executed (o := .done) h
      exact hs.represents hrep' hp

end

end Stmt

/-- At every moment of a call, the interpreter is in a state of the semantics, and its current scope
is as deep as blocks are being executed. -/
theorem Interpreter.Visits.represents [Writer ω] {ss : List Stmt} {s : Interpreter ω} {m : Moment ω}
    {σ : State ω} (h : Interpreter.Visits ss s m) (hrep : s.Represents Environment.global σ) :
    (∃ σ', m.interpreter.Represents m.scope σ') ∧ m.scope = m.place.depth := by
  cases h with
  | inside h => exact h.represents hrep rfl
  | finish h =>
      obtain ⟨σ', -, hrep'⟩ := executesAll_of_interpret hrep h
      exact ⟨⟨σ', hrep'⟩, rfl⟩

end Lox
