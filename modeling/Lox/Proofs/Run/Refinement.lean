import Mathlib.Tactic
import Lox.Proofs.Run.Statement

set_option autoImplicit false

/-! # Sessions follow the semantics

An interpreter is called with one list of statements after the other. A session of the semantics
starts with no global variables and executes the same lists on the state that the one before left.
Interpreter and semantics have the same outcomes, output and global variables after every call
(`Interpreter.interpret_refines`).
-/

namespace Lox

open Semantics Execution

variable {ω : Type}

/-- The calls of a session, the last one first: what was executed and what came of it. -/
abbrev Calls := List (List Stmt × Outcome)

namespace Semantics

variable [Writer ω]

/-- `Session sink calls σ`: the calls lead from no variables and the sink `sink` to `σ`. -/
inductive Session (sink : ω) : Calls → State ω → Prop
  | start : Session sink [] ⟨[∅], sink⟩
  | call {calls : Calls} {σ σ' : State ω} {ss : List Stmt} {o : Outcome}
      (h : Session sink calls σ) (hs : ExecutesAll ss σ o σ') :
      Session sink ((ss, o) :: calls) σ'

end Semantics

namespace Interpreter

/-- The global variables. -/
def globals (s : Interpreter ω) : Std.ExtTreeMap String Value :=
  s.environment.bindingsAt Environment.global

/-- Between two calls an interpreter has no variables but the global ones. -/
theorem Represents.eq_globals {s : Interpreter ω} {σ : State ω}
    (h : s.Represents Environment.global σ) : σ = ⟨[s.globals], s.output⟩ := by
  obtain ⟨ms, sink⟩ := σ
  have hframes : [s.globals] = ms := h.frames.frames
  have hsink : s.output = sink := h.sink
  rw [hframes, hsink]

theorem represents_initial (output : ω) :
    (initial output).Represents Environment.global ⟨[∅], output⟩ :=
  ⟨Environment.represents_initial, rfl⟩

variable [Writer ω]

/-- `Session output calls s`: the calls lead from a new interpreter that writes to `output`
to `s`. None of them came upon a misfit operator. -/
inductive Session (output : ω) : Calls → Interpreter ω → Prop
  | start : Session output [] (.initial output)
  | call {calls : Calls} {s t : Interpreter ω} {ss : List Stmt} {o : Outcome}
      (h : Session output calls s) (hs : interpret ss s = ended o.result t) :
      Session output ((ss, o) :: calls) t

/-! ## Calls -/

/-- A call executes the statements in the global scope, and notes if they fail. -/
theorem interpret_of_outcome {ss : List Stmt} {s t : Interpreter ω} {o : Outcome}
    {σ : State ω} (h : Stmt.executeAll Environment.global ss s = ended o.result t)
    (hrep : t.Represents Environment.global σ) :
    ∃ t', interpret ss s = ended o.result t' ∧ t'.Represents Environment.global σ := by
  have hcall : interpret ss s =
      EStateM.tryCatch (Stmt.executeAll Environment.global ss) _ s := rfl
  rw [EStateM.tryCatch, h] at hcall
  cases o with
  | done => exact ⟨t, hcall, hrep⟩
  | runtime e => exact ⟨_, hcall, hrep.noted (.aborted (.runtime e))⟩
  | output e => exact ⟨_, hcall, hrep.noted (.aborted (.output e))⟩

theorem interpret_of_misfit {ss : List Stmt} {s t : Interpreter ω} {operator : Token}
    (h : Stmt.executeAll Environment.global ss s = .error (.misfit operator) t) :
    interpret ss s = .error (.misfit operator) t := by
  have hcall : interpret ss s =
      EStateM.tryCatch (Stmt.executeAll Environment.global ss) _ s := rfl
  rw [EStateM.tryCatch, h] at hcall
  exact hcall

/-- What the semantics says of statements is what a call with them comes to. -/
theorem interpret_of_executesAll {ss : List Stmt} {σ σ' : State ω} {o : Outcome}
    (h : ExecutesAll ss σ o σ') {s : Interpreter ω}
    (hrep : s.Represents Environment.global σ) :
    ∃ t, interpret ss s = ended o.result t ∧ t.Represents Environment.global σ' := by
  obtain ⟨t, hrun, hrep'⟩ := h.run hrep
  exact interpret_of_outcome hrun hrep'

/-- A call that does not come upon a misfit operator comes to what the semantics says. -/
theorem executesAll_of_interpret {ss : List Stmt} {s t : Interpreter ω} {o : Outcome}
    {σ : State ω} (hrep : s.Represents Environment.global σ)
    (h : interpret ss s = ended o.result t) :
    ∃ σ', ExecutesAll ss σ o σ' ∧ t.Represents Environment.global σ' := by
  rcases Stmt.executesAll_or_misfit ss hrep with ⟨o', σ', hex⟩ | ⟨-, operator, t', hrun⟩
  · obtain ⟨t', hrun, hrep'⟩ := interpret_of_executesAll hex hrep
    obtain ⟨ho, rfl⟩ := ended_inj.mp (h.symm.trans hrun)
    obtain rfl := Outcome.result_inj.mp ho
    exact ⟨σ', hex, hrep'⟩
  · exact absurd (h.symm.trans (interpret_of_misfit hrun)) Outcome.ended_ne_misfit

/-! ## Sessions -/

/-- Between two calls an interpreter executes in the global scope, which is the only one. -/
theorem Session.represents {output : ω} {calls : Calls} {s : Interpreter ω}
    (h : Session output calls s) : s.Represents Environment.global ⟨[s.globals], s.output⟩ := by
  induction h with
  | start => exact represents_initial output
  | call _ hs ih =>
      obtain ⟨σ', -, hrep⟩ := executesAll_of_interpret ih hs
      rw [← hrep.eq_globals]
      exact hrep

/-- After the same calls, the semantics has the global variables and the sink of the interpreter,
and no others. -/
theorem Session.semantics_iff {output : ω} {calls : Calls} {s : Interpreter ω}
    (h : Session output calls s) (σ : State ω) :
    Semantics.Session output calls σ ↔ σ = ⟨[s.globals], s.output⟩ := by
  induction h generalizing σ with
  | start =>
      constructor
      · rintro ⟨⟩
        rfl
      · rintro rfl
        exact .start
  | @call calls s t ss o h hs ih =>
      constructor
      · intro hcall
        cases hcall with
        | call h₀ hex =>
            obtain rfl := (ih _).mp h₀
            obtain ⟨t', hrun, hrep⟩ := interpret_of_executesAll hex h.represents
            obtain ⟨-, rfl⟩ := ended_inj.mp (hs.symm.trans hrun)
            exact hrep.eq_globals
      · rintro rfl
        obtain ⟨σ', hex, hrep⟩ := executesAll_of_interpret h.represents hs
        rw [← hrep.eq_globals]
        exact .call ((ih _).mpr rfl) hex

/-- **Refinement.** After any calls, a call with statements that fit has the outcome that the
semantics says, and leaves the global variables and the sink that the semantics says. -/
theorem interpret_refines {output : ω} {calls : Calls} {s : Interpreter ω}
    (h : Session output calls s) {ss : List Stmt} (hfits : Stmt.AllFit ss) :
    ∃ o t, interpret ss s = ended o.result t ∧
      ∀ o' σ', Semantics.Session output ((ss, o') :: calls) σ' ↔
        o' = o ∧ σ' = ⟨[t.globals], t.output⟩ := by
  rcases Stmt.executesAll_or_misfit ss h.represents with ⟨o, σ', hex⟩ | ⟨hmisfit, -⟩
  · obtain ⟨t, hrun, hrep⟩ := interpret_of_executesAll hex h.represents
    refine ⟨o, t, hrun, fun o' σ' => ?_⟩
    constructor
    · intro hcall
      cases hcall with
      | call h₀ hex' =>
          obtain rfl := (h.semantics_iff _).mp h₀
          -- whatever the semantics says, the interpreter does, and it does one thing only
          obtain ⟨t', hrun', hrep'⟩ := interpret_of_executesAll hex' h.represents
          obtain ⟨ho, rfl⟩ := ended_inj.mp (hrun'.symm.trans hrun)
          exact ⟨Outcome.result_inj.mp ho, hrep'.eq_globals⟩
    · rintro ⟨rfl, rfl⟩
      exact ((Session.call h hrun).semantics_iff _).mpr rfl
  · exact absurd hfits hmisfit

/-- `var a = "out";` -/
def outerDeclaration : List Stmt :=
  [.declare ⟨.identifier, "a", none, 1⟩ (some (.literal (.string "out")))]

/-- The interpreter with a global variable `a`. -/
def outerDeclared : Interpreter Sink :=
  ⟨Environment.initial.define 0 "a" (.string "out"), Sink.unbounded, #[.executing .declare]⟩

/-- `{ var a = "in"; print a; } print a == nil; print 0.10; print nil; print -a; print a;` -/
def shadowingBlock : List Stmt :=
  let a : Token := ⟨.identifier, "a", none, 1⟩
  [.block [.declare a (some (.literal (.string "in"))), .print (.var a)],
   .print (.binary (.var a) ⟨.equalEqual, "==", none, 1⟩ (.literal .nil)),
   .print (.literal (.number (Numeral.read ['0', '.', '1', '0']))),
   .print (.literal .nil),
   .print (.unary ⟨.minus, "-", none, 1⟩ (.var a)),
   .print (.var a)]

/-- What a call comes to, the bytes that have been written then, and the global variables. -/
def effect (r : EStateM.Result Failure (Interpreter Sink) Unit) :
    Except Failure Unit × List UInt8 × List (String × Value) :=
  match r with
  | .ok () t => (.ok (), t.output.written.toList, t.globals.toList)
  | .error f t => (.error f, t.output.written.toList, t.globals.toList)

theorem effect_ended (r : Except Failure Unit) (t : Interpreter Sink) :
    effect (ended r t) = (r, t.output.written.toList, t.globals.toList) := by
  cases r <;> rfl

/-- A block hides the variable of an earlier call, values of every type are shown, and a type error
ends the call. The semantics says this and nothing else. -/
theorem interpret_shadowingBlock :
    Session Sink.unbounded [(outerDeclaration, .done)] outerDeclared ∧
      Stmt.AllFit shadowingBlock ∧
      ∃ t, interpret shadowingBlock outerDeclared =
          .error (.runtime ⟨⟨.minus, "-", none, 1⟩, .operandsNotNumbers⟩) t ∧
        t.output.written.toList = "in\ntrue\n0.1\nnil\n".toUTF8.data.toList ∧
        t.globals.toList = [("a", .string "out")] ∧
        ∀ o' σ',
          Semantics.Session Sink.unbounded [(shadowingBlock, o'), (outerDeclaration, .done)] σ' ↔
            o' = .runtime ⟨⟨.minus, "-", none, 1⟩, .operandsNotNumbers⟩ ∧
              σ' = ⟨[t.globals], t.output⟩ := by
  have hsession : Session Sink.unbounded [(outerDeclaration, .done)] outerDeclared :=
    .call .start rfl
  have hfits : Stmt.AllFit shadowingBlock := by
    simp [shadowingBlock, Stmt.AllFit, Stmt.Fits, Expr.Fits, Token.Kind.isBinary,
      Token.Kind.isUnary]
  have heffect : effect (interpret shadowingBlock outerDeclared) =
      (Outcome.result (.runtime ⟨⟨.minus, "-", none, 1⟩, .operandsNotNumbers⟩),
        "in\ntrue\n0.1\nnil\n".toUTF8.data.toList, [("a", .string "out")]) := by decide +kernel
  obtain ⟨o, t, hrun, hiff⟩ := interpret_refines hsession hfits
  rw [hrun, effect_ended] at heffect
  obtain ⟨ho, hends⟩ := Prod.mk.inj heffect
  obtain ⟨hwritten, hglobals⟩ := Prod.mk.inj hends
  obtain rfl := Outcome.result_inj.mp ho
  exact ⟨hsession, hfits, t, hrun, hwritten, hglobals, hiff⟩

end Interpreter

end Lox
