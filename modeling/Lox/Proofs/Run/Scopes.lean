import Mathlib.Tactic
import Lox.Proofs.Run.Trace

set_option autoImplicit false

/-! # Scopes over whole runs

Scopes open and close as a stack over the whole life of an interpreter: at every moment of every
call there is one scope more than blocks are being executed, each in the one before it
(`Moment.IsStacked`). After a call nothing is left of its scopes, so that the next call cannot tell
what was executed before, except by the global variables (`Interpreter.scopes_of_session`).
-/

namespace Lox

open Semantics Execution
open Interpreter (NestsTo behind resultBehind)

variable {ω : Type}

/-! ## Moments -/

/-- At the moment the scopes are a stack, with one scope for each block and the global one. The
current scope is the last one, and all scopes are on the chain from it. -/
structure Moment.IsStacked (m : Moment ω) : Prop where
  size : m.interpreter.environment.scopes.size = m.place.depth + 1
  current : m.scope + 1 = m.interpreter.environment.scopes.size
  enclosing : ∀ i (h : i < m.interpreter.environment.scopes.size),
    m.interpreter.environment.scopes[i].enclosing = if i = 0 then none else some (i - 1)
  chain : m.interpreter.environment.chain m.scope =
    (List.range m.interpreter.environment.scopes.size).reverse

theorem Environment.IsStack.chain_eq {env : Environment} (h : env.IsStack) {i : Nat}
    (hi : i < env.scopes.size) : env.chain i = (List.range (i + 1)).reverse := by
  induction i with
  | zero => exact h.chain_zero
  | succ i ih =>
      rw [h.chain_succ hi, ih (by omega), List.range_succ (n := i + 1), List.reverse_append]
      rfl

theorem Moment.isStacked_of_represents {m : Moment ω} {σ : State ω}
    (hrep : m.interpreter.Represents m.scope σ) (hdepth : m.scope = m.place.depth) :
    m.IsStacked := by
  have hsize := hrep.frames.size
  refine ⟨by omega, hsize.symm, hrep.frames.stack, ?_⟩
  rw [hrep.frames.stack.chain_eq (by omega), hsize]

/-! ## Calls -/

/-- The environment with nothing but the global scope. -/
def Environment.ofGlobals (bindings : Std.ExtTreeMap String Value) : Environment where
  scopes := #[⟨bindings, none⟩]
  nonempty := Nat.zero_lt_one
  earlier i h j e := by
    obtain rfl : i = 0 := Nat.lt_one_iff.mp h
    simp at e

/-- A lone scope is a global one. -/
theorem Environment.Represents.eq_ofGlobals {env : Environment} {ms : Frames}
    (h : env.Represents global ms) : env = .ofGlobals (env.bindingsAt global) := by
  have hsize : env.scopes.size = 1 := h.size
  have henclosing := h.stack 0 env.nonempty
  rw [if_pos rfl] at henclosing
  have hscopes : env.scopes = #[⟨env.bindingsAt global, none⟩] := by
    apply Array.ext
    · exact hsize
    · intro i hi hi'
      obtain rfl : i = 0 := by omega
      have hat : env.bindingsAt global = env.scopes[0].bindings := by
        rw [bindingsAt, global, Array.getElem?_eq_getElem hi]
        rfl
      rw [hat]
      show env.scopes[0] = ⟨env.scopes[0].bindings, none⟩
      rw [← henclosing]
  cases env with
  | mk scopes nonempty earlier =>
      simp only [ofGlobals, mk.injEq]
      exact hscopes

namespace Interpreter

/-- A new interpreter that has these global variables. -/
def withGlobals (bindings : Std.ExtTreeMap String Value) (output : ω) : Interpreter ω :=
  ⟨.ofGlobals bindings, output, #[]⟩

/-- An interpreter between two calls: it has global variables and a trace, and no other scope. All
interpreters have this form between two calls (`Represents.eq_between`). -/
def between (bindings : Std.ExtTreeMap String Value) (output : ω) (trace : Array Event) :
    Interpreter ω :=
  ⟨.ofGlobals bindings, output, trace⟩

theorem represents_between (bindings : Std.ExtTreeMap String Value) (output : ω)
    (trace : Array Event) :
    (between bindings output trace).Represents Environment.global ⟨[bindings], output⟩ where
  frames :=
    { stack := fun i h => by
        obtain rfl : i = 0 := Nat.lt_one_iff.mp h
        rfl
      size := rfl
      frames := rfl }
  sink := rfl

/-- An interpreter with the global scope only is one between two calls. -/
theorem Represents.eq_between {s : Interpreter ω} {σ : State ω}
    (h : s.Represents Environment.global σ) : s = between s.globals s.output s.trace := by
  have henv := h.frames.eq_ofGlobals
  show s = ⟨.ofGlobals (s.environment.bindingsAt Environment.global), s.output, s.trace⟩
  rw [← henv]

/-- Between two calls, an interpreter is a new one but for its global variables and its trace. -/
theorem Represents.eq_behind {s : Interpreter ω} {σ : State ω}
    (h : s.Represents Environment.global σ) :
    s = (withGlobals s.globals s.output).behind s.trace := by
  show s = ⟨.ofGlobals s.globals, s.output, s.trace ++ #[]⟩
  rw [Array.append_empty]
  exact h.eq_between

variable [Writer ω]

/-- What the semantics says of statements and global variables is what a call comes to. -/
theorem interpret_between {ss : List Stmt} {bindings : Std.ExtTreeMap String Value} {output : ω}
    {o : Outcome} {σ : State ω} (h : ExecutesAll ss ⟨[bindings], output⟩ o σ)
    (trace : Array Event) :
    ∃ t, interpret ss (between bindings output trace) = ended o.result t ∧
      σ = ⟨[t.globals], t.output⟩ := by
  obtain ⟨t, hrun, hrep⟩ := interpret_of_executesAll h (represents_between bindings output trace)
  exact ⟨t, hrun, hrep.eq_globals⟩

/-- A call executes the statements in the global scope, and then notes a failure. -/
theorem executeAll_of_interpret {ss : List Stmt} {s t : Interpreter ω} {o : Outcome}
    (h : interpret ss s = ended o.result t) :
    ∃ u, Stmt.executeAll Environment.global ss s = ended o.result u ∧
      (t = u ∨ ∃ f, t = u.noted (.aborted f)) := by
  have hcall : interpret ss s =
      EStateM.tryCatch (Stmt.executeAll Environment.global ss) _ s := rfl
  rcases ended_or_misfit (Stmt.executeAll Environment.global ss s) with
      ⟨o', u, hrun⟩ | ⟨operator, u, hrun⟩
  · rw [EStateM.tryCatch, hrun] at hcall
    cases o' with
    | done =>
        obtain ⟨ho, rfl⟩ := ended_eq_ok.mp (h.symm.trans hcall)
        exact ⟨t, by rw [ho, hrun]; rfl, .inl rfl⟩
    | runtime e | output e =>
        obtain ⟨ho, rfl⟩ := ended_eq_error.mp (h.symm.trans hcall)
        exact ⟨u, by rw [ho, hrun]; rfl, .inr ⟨_, rfl⟩⟩
  · exact absurd (h.symm.trans (interpret_of_misfit hrun)) Outcome.ended_ne_misfit

/-- The events of a call are well-nested. -/
theorem nestsTo_of_interpret {ss : List Stmt} {s t : Interpreter ω} {σ : State ω} {o : Outcome}
    (hrep : s.Represents Environment.global σ) (h : interpret ss s = ended o.result t) :
    NestsTo Environment.global s t := by
  obtain ⟨u, hrun, ht⟩ := executeAll_of_interpret h
  have hnested := Stmt.nestsTo_of_executeAll ss hrep hrun
  rcases ht with rfl | ⟨f, rfl⟩
  · exact hnested
  · exact hnested.trans (.noted rfl)

/-- **Scopes over whole runs.** After any calls, at every moment of a call with statements that fit
the scopes are a stack with one scope for each block that is being executed. The call ends, its
events are well-nested, and then the interpreter has the global scope only: it goes on as a new one
with the same global variables does. -/
theorem scopes_of_session {output : ω} {calls : Calls} {s : Interpreter ω}
    (h : Session output calls s) {ss : List Stmt} (hfits : Stmt.AllFit ss) :
    (∀ m, Interpreter.Visits ss s m → m.IsStacked) ∧
      ∃ (o : Outcome) (t : Interpreter ω) (events : List Event), interpret ss s = ended o.result t ∧
        t.trace.toList = s.trace.toList ++ events ∧ WellNested Environment.global events ∧
        t.environment = .ofGlobals t.globals ∧
        ∀ next, interpret next t =
          resultBehind t.trace (interpret next (withGlobals t.globals t.output)) := by
  constructor
  · intro m hm
    obtain ⟨⟨σ, hrep⟩, hdepth⟩ := hm.represents h.represents
    exact Moment.isStacked_of_represents hrep hdepth
  · rcases Stmt.executesAll_or_misfit ss h.represents with ⟨o, σ, hex⟩ | ⟨hmisfit, -⟩
    · obtain ⟨t, hrun, hrep⟩ := interpret_of_executesAll hex h.represents
      obtain ⟨events, htrace, hnested⟩ := nestsTo_of_interpret h.represents hrun
      refine ⟨o, t, events, hrun, htrace, hnested, hrep.frames.eq_ofGlobals, fun next => ?_⟩
      have hnew := ignoresTrace_interpret next t.trace (withGlobals t.globals t.output)
      rwa [← hrep.eq_behind] at hnew
    · exact absurd hfits hmisfit

/-- `{ { print -nil; } print nil; }` -/
def failingBlock : List Stmt :=
  [.block [.block [.print (.unary ⟨.minus, "-", none, 1⟩ (.literal .nil))],
    .print (.literal .nil)]]

/-- The type error in the block. -/
def negatedNil : RuntimeError := ⟨⟨.minus, "-", none, 1⟩, .operandsNotNumbers⟩

/-- The events of a call with the block. -/
def failingEvents : List Event :=
  [.executing .block, .opened 1 0, .executing .block, .opened 2 1, .executing .print,
   .closed 2, .closed 1, .aborted (.runtime negatedNil)]

/-- The interpreter after the first call. -/
def failedOnce : Interpreter Sink := ⟨.initial, Sink.unbounded, failingEvents.toArray⟩

/-- A failure two blocks deep closes both scopes and leaves nothing behind but its events, the
second time as well as the first. -/
theorem scopes_failingBlock :
    Session Sink.unbounded [(failingBlock, .runtime negatedNil)] failedOnce ∧
      Stmt.AllFit failingBlock ∧
      (∀ m, Interpreter.Visits failingBlock failedOnce m → m.IsStacked) ∧
      (∃ m, Interpreter.Visits failingBlock failedOnce m ∧ m.place.depth = 2 ∧ m.scope = 2 ∧
        m.interpreter.environment.chain m.scope = [2, 1, 0]) ∧
      ∃ t, interpret failingBlock failedOnce = .error (.runtime negatedNil) t ∧
        t.trace.toList = failingEvents ++ failingEvents ∧
        WellNested Environment.global failingEvents ∧
        t.environment = .initial ∧
        ∀ next, interpret next t =
          resultBehind t.trace (interpret next (.initial Sink.unbounded)) := by
  have hsession : Session Sink.unbounded [(failingBlock, .runtime negatedNil)] failedOnce :=
    .call .start rfl
  have hfits : Stmt.AllFit failingBlock := by
    simp [failingBlock, Stmt.AllFit, Stmt.Fits, Expr.Fits, Token.Kind.isUnary]
  obtain ⟨hstacked, o, t, events, hrun, htrace, hnested, -, hnext⟩ :=
    scopes_of_session hsession hfits
  have hfails : interpret failingBlock failedOnce = ended (Outcome.runtime negatedNil).result
      ⟨.initial, Sink.unbounded, (failingEvents ++ failingEvents).toArray⟩ := rfl
  obtain ⟨-, rfl⟩ := ended_inj.mp (hrun.symm.trans hfails)
  obtain rfl : failingEvents = events := List.append_cancel_left htrace
  have hvisits : Interpreter.Visits failingBlock failedOnce _ :=
    .inside (.here (.inside (.here (.inside (.here (.evaluating rfl .start))))))
  have hdeep := hstacked _ hvisits
  exact ⟨hsession, hfits, hstacked, ⟨_, hvisits, rfl, rfl, hdeep.chain⟩, _, hfails, rfl, hnested,
    rfl, hnext⟩

end Interpreter

end Lox
