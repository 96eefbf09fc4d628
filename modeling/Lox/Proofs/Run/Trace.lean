import Mathlib.Tactic
import Lox.Proofs.Run.Moment

set_option autoImplicit false

/-! # The trace of a run

The trace shows the scopes of a run as they open and close. For a statement these events are well
nested (`WellNested`): a scope that opens is the next one inside the current scope, and it closes
before anything else happens in the scope around it.

Nothing that is executed depends on what the trace holds already (`Execution.IgnoresTrace`).
-/

namespace Lox

open Semantics Execution

variable {ω : Type}

/-! ## Executions, taken apart -/

/-- A run of statements ends with an outcome or with a misfit operator. -/
theorem ended_or_misfit (r : EStateM.Result Failure (Interpreter ω) Unit) :
    (∃ (o : Outcome) (t : Interpreter ω), r = ended o.result t) ∨
      ∃ (operator : Token) (t : Interpreter ω), r = .error (.misfit operator) t := by
  cases r with
  | ok a t => exact .inl ⟨.done, t, rfl⟩
  | error f t =>
      cases f with
      | runtime e => exact .inl ⟨.runtime e, t, rfl⟩
      | output e => exact .inl ⟨.output e, t, rfl⟩
      | misfit operator => exact .inr ⟨operator, t, rfl⟩

/-- A run in a new scope ends with the scope closed. -/
theorem inScope_ended {s t : Interpreter ω} {inside : Nat} {run : Nat → Execution ω Unit}
    {o : Outcome} (h : inScope inside run s = ended o.result t) :
    ∃ u, run s.environment.scopes.size (s.entered inside) = ended o.result u ∧
      t = u.exited s.environment.scopes.size := by
  rcases ended_or_misfit (run s.environment.scopes.size (s.entered inside)) with
      ⟨o', u, hrun⟩ | ⟨operator, u, hrun⟩
  · obtain ⟨ho, rfl⟩ := ended_inj.mp (h.symm.trans (inScope_of_outcome hrun))
    exact ⟨u, by rw [ho, hrun], rfl⟩
  · exact absurd (h.symm.trans (inScope_of_misfit hrun)) Outcome.ended_ne_misfit

theorem trace_ofEvaluation {α : Type} {m : Evaluation α} {s t : Interpreter ω}
    {r : Except Failure α} (h : ofEvaluation m s = ended r t) : t.trace = s.trace := by
  unfold ofEvaluation at h
  split at h
  · obtain ⟨-, rfl⟩ := ended_eq_ok.mp h.symm
    rfl
  · obtain ⟨-, rfl⟩ := ended_eq_error.mp h.symm
    rfl

theorem trace_ofWriting {α : Type} {m : EStateM WriteError ω α} {s t : Interpreter ω}
    {r : Except Failure α} (h : ofWriting m s = ended r t) : t.trace = s.trace := by
  unfold ofWriting at h
  split at h
  · obtain ⟨-, rfl⟩ := ended_eq_ok.mp h.symm
    rfl
  · obtain ⟨-, rfl⟩ := ended_eq_error.mp h.symm
    rfl

namespace Stmt

variable [Writer ω] (scope : Nat) (s : Interpreter ω)

theorem execute_expression (e : Expr) :
    (expression e).execute scope s =
      (ofEvaluation (e.evaluate scope) >>= fun _ => pure ()) (s.noted (.executing .expression)) :=
  rfl

theorem execute_print (e : Expr) :
    (print e).execute scope s =
      (ofEvaluation (e.evaluate scope) >>= fun v =>
        ofWriting (Writer.writeText v.text) >>= fun _ => ofWriting (Writer.writeText "\n"))
        (s.noted (.executing .print)) :=
  rfl

/-- Binds a name in the scope. -/
def bindName (name : Token) (v : Value) : Execution ω Unit :=
  modify fun s => { s with environment := s.environment.define scope name.lexeme v }

theorem execute_declare (name : Token) :
    (declare name none).execute scope s =
      bindName scope name .nil (s.noted (.executing .declare)) :=
  rfl

theorem execute_declare_some (name : Token) (e : Expr) :
    (declare name (some e)).execute scope s =
      (ofEvaluation (e.evaluate scope) >>= bindName scope name) (s.noted (.executing .declare)) :=
  rfl

theorem execute_block (body : List Stmt) :
    (block body).execute scope s =
      inScope scope (fun inner => executeAll inner body) (s.noted (.executing .block)) :=
  rfl

theorem execute_ifThen (c : Expr) (st : Stmt) :
    (ifThen c st).execute scope s =
      (ofEvaluation (c.evaluate scope) >>= fun v =>
        if v.isTruthy then st.execute scope else pure ()) (s.noted (.executing .conditional)) :=
  rfl

theorem execute_ifElse (c : Expr) (st st' : Stmt) :
    (ifElse c st st').execute scope s =
      (ofEvaluation (c.evaluate scope) >>= fun v =>
        if v.isTruthy then st.execute scope else st'.execute scope)
        (s.noted (.executing .conditional)) :=
  rfl

theorem executeAll_cons (st : Stmt) (ss : List Stmt) :
    (executeAll scope (st :: ss) : Execution ω Unit) =
      st.execute scope >>= fun _ => executeAll scope ss :=
  rfl

end Stmt

/-! ## The trace of a run -/

namespace Event

/-- Whether the event shows a scope that opens or closes. -/
def isScope : Event → Bool
  | opened _ _ | closed _ => true
  | _ => false

end Event

/-- `WellNested d events`: in a run in the scope `d`, every scope that opens is the next one inside
the current one, and closes again before another event of the scope around it. -/
inductive WellNested : Nat → List Event → Prop
  | nil {d : Nat} : WellNested d []
  | other {d : Nat} {e : Event} {es : List Event} (h : e.isScope = false) (hs : WellNested d es) :
      WellNested d (e :: es)
  | scope {d : Nat} {inner es : List Event} (h : WellNested (d + 1) inner) (hs : WellNested d es) :
      WellNested d (.opened (d + 1) d :: (inner ++ .closed (d + 1) :: es))

theorem WellNested.append {d : Nat} {es es' : List Event} (h : WellNested d es)
    (h' : WellNested d es') : WellNested d (es ++ es') := by
  induction h with
  | nil => exact h'
  | other he _ ih => exact .other he (ih h')
  | scope h _ _ ih =>
      rw [List.cons_append, List.append_assoc, List.cons_append]
      exact .scope h (ih h')

namespace Interpreter

/-- What the trace has gained between the two interpreters is a well-nested run in the scope. -/
def NestsTo (scope : Nat) (s t : Interpreter ω) : Prop :=
  ∃ events, t.trace.toList = s.trace.toList ++ events ∧ WellNested scope events

namespace NestsTo

variable {scope : Nat} {s t u : Interpreter ω}

theorem of_trace_eq (h : t.trace = s.trace) : NestsTo scope s t :=
  ⟨[], by rw [h, List.append_nil], .nil⟩

theorem trans (h : NestsTo scope s t) (h' : NestsTo scope t u) : NestsTo scope s u := by
  obtain ⟨events, ht, hn⟩ := h
  obtain ⟨events', hu, hn'⟩ := h'
  exact ⟨events ++ events', by rw [hu, ht, List.append_assoc], hn.append hn'⟩

/-- A computation and what goes on after it. -/
theorem bind {α β : Type} {m : Execution ω α} {k : α → Execution ω β} {r : Except Failure β}
    (h : (m >>= k) s = ended r t) (hm : ∀ r' u, m s = ended r' u → NestsTo scope s u)
    (hk : ∀ a u, m s = .ok a u → k a u = ended r t → NestsTo scope u t) : NestsTo scope s t := by
  rcases bind_ended h with ⟨a, u, hrun, hrest⟩ | ⟨f, hrun, -⟩
  · exact (hm (.ok a) u hrun).trans (hk a u hrun hrest)
  · exact hm (.error f) t hrun

theorem evaluation {α : Type} {m : Evaluation α} (r : Except Failure α) (u : Interpreter ω)
    (h : ofEvaluation m s = ended r u) : NestsTo scope s u :=
  of_trace_eq (trace_ofEvaluation h)

theorem writing {α : Type} {m : EStateM WriteError ω α} (r : Except Failure α)
    (u : Interpreter ω) (h : ofWriting m s = ended r u) : NestsTo scope s u :=
  of_trace_eq (trace_ofWriting h)

theorem noted {event : Event} (h : event.isScope = false) : NestsTo scope s (s.noted event) :=
  ⟨[event], Array.toList_push, .other h .nil⟩

theorem executing (form : Stmt.Form) : NestsTo scope s (s.noted (.executing form)) :=
  noted rfl

/-- The events of a block stand between those for its scope. -/
theorem block (hsize : s.environment.scopes.size = scope + 1)
    (h : NestsTo (scope + 1) (s.entered scope) t) :
    NestsTo scope s (t.exited s.environment.scopes.size) := by
  obtain ⟨events, ht, hn⟩ := h
  refine ⟨.opened (scope + 1) scope :: (events ++ [.closed (scope + 1)]), ?_, .scope hn .nil⟩
  have hentered : (s.entered scope).trace.toList =
      s.trace.toList ++ [.opened (scope + 1) scope] := by
    show (s.trace.push (.opened s.environment.scopes.size scope)).toList = _
    rw [Array.toList_push, hsize]
  show (t.trace.push (.closed s.environment.scopes.size)).toList = _
  rw [Array.toList_push, ht, hentered, hsize]
  simp

end NestsTo

end Interpreter

namespace Stmt

open Interpreter

variable [Writer ω]

mutual

/-- The events of a statement are well-nested. -/
theorem nestsTo_of_execute (st : Stmt) {s t : Interpreter ω} {scope : Nat} {σ : State ω}
    {o : Outcome} (hrep : s.Represents scope σ) (h : st.execute scope s = ended o.result t) :
    NestsTo scope s t := by
  have hsize : s.environment.scopes.size = scope + 1 := hrep.frames.size
  cases st with
  | expression e =>
      rw [execute_expression] at h
      refine (NestsTo.executing .expression).trans (.bind h .evaluation fun v s₁ _ hrest => ?_)
      obtain ⟨-, rfl⟩ := ended_eq_ok.mp hrest.symm
      exact .of_trace_eq rfl
  | print e =>
      rw [execute_print] at h
      refine (NestsTo.executing .print).trans (.bind h .evaluation fun v s₁ _ hprint => ?_)
      exact .bind hprint .writing fun _ s₂ _ hline => .writing _ t hline
  | declare name initializer =>
      refine (NestsTo.executing .declare).trans ?_
      cases initializer with
      | none =>
          rw [execute_declare] at h
          obtain ⟨-, rfl⟩ := ended_eq_ok.mp h.symm
          exact .of_trace_eq rfl
      | some e =>
          rw [execute_declare_some] at h
          refine .bind h .evaluation fun v s₁ _ hbind => ?_
          obtain ⟨-, rfl⟩ := ended_eq_ok.mp hbind.symm
          exact .of_trace_eq rfl
  | block body =>
      rw [execute_block] at h
      refine (NestsTo.executing .block).trans ?_
      obtain ⟨u, hbody, rfl⟩ := inScope_ended h
      have hentered := (hrep.noted (.executing .block)).entered
      have hnested : NestsTo (scope + 1) ((s.noted (.executing .block)).entered scope) u := by
        refine nestsTo_of_executeAll body hentered (o := o) ?_
        rw [← hsize]
        exact hbody
      exact NestsTo.block hsize hnested
  | ifThen c st =>
      rw [execute_ifThen] at h
      refine (NestsTo.executing .conditional).trans (.bind h .evaluation fun v s₁ hc hbranch => ?_)
      obtain ⟨ms, -, hrep₁⟩ := (hrep.noted (.executing .conditional)).evaluated (r := .ok v) hc
      split at hbranch
      · exact nestsTo_of_execute st hrep₁ hbranch
      · obtain ⟨-, rfl⟩ := ended_eq_ok.mp hbranch.symm
        exact .of_trace_eq rfl
  | ifElse c st st' =>
      rw [execute_ifElse] at h
      refine (NestsTo.executing .conditional).trans (.bind h .evaluation fun v s₁ hc hbranch => ?_)
      obtain ⟨ms, -, hrep₁⟩ := (hrep.noted (.executing .conditional)).evaluated (r := .ok v) hc
      split at hbranch
      · exact nestsTo_of_execute st hrep₁ hbranch
      · exact nestsTo_of_execute st' hrep₁ hbranch

theorem nestsTo_of_executeAll (ss : List Stmt) {s t : Interpreter ω} {scope : Nat} {σ : State ω}
    {o : Outcome} (hrep : s.Represents scope σ) (h : executeAll scope ss s = ended o.result t) :
    NestsTo scope s t := by
  cases ss with
  | nil =>
      obtain ⟨-, rfl⟩ := ended_eq_ok.mp h.symm
      exact .of_trace_eq rfl
  | cons st ss =>
      rw [executeAll_cons] at h
      rcases bind_ended h with ⟨_, s₁, hst, hss⟩ | ⟨f, hst, ho⟩
      · have hst : st.execute scope s = ended (Outcome.result .done) s₁ := hst
        obtain ⟨σ', -, hrep₁⟩ := hrep.executed hst
        exact (nestsTo_of_execute st hrep hst).trans (nestsTo_of_executeAll ss hrep₁ hss)
      · refine nestsTo_of_execute st hrep (o := o) ?_
        rw [hst, ho]
        rfl

end

end Stmt

/-! ## The trace does not matter -/

namespace Interpreter

/-- The interpreter with other events in front of those in its trace. -/
def behind (earlier : Array Event) (s : Interpreter ω) : Interpreter ω :=
  { s with trace := earlier ++ s.trace }

/-- The end of a run with other events in front. -/
def resultBehind {α : Type} (earlier : Array Event) :
    EStateM.Result Failure (Interpreter ω) α → EStateM.Result Failure (Interpreter ω) α
  | .ok a s => .ok a (s.behind earlier)
  | .error f s => .error f (s.behind earlier)

end Interpreter

open Interpreter (behind resultBehind)

namespace Execution

variable {α β : Type}

/-- What the computation does is the same whatever is in the trace already. -/
def IgnoresTrace (m : Execution ω α) : Prop :=
  ∀ earlier s, m (s.behind earlier) = resultBehind earlier (m s)

theorem IgnoresTrace.bind {m : Execution ω α} {k : α → Execution ω β} (h : m.IgnoresTrace)
    (hk : ∀ a, (k a).IgnoresTrace) : (m >>= k).IgnoresTrace := by
  intro earlier s
  have hm := h earlier s
  cases hs : m s with
  | ok a t =>
      rw [hs] at hm
      rw [bind_of_ok hs, bind_of_ok hm, hk a earlier t]
  | error f t =>
      rw [hs] at hm
      rw [bind_of_error hs, bind_of_error hm]
      rfl

theorem ignoresTrace_pure (a : α) : IgnoresTrace (pure a : Execution ω α) := fun _ _ => rfl

theorem ignoresTrace_note (event : Event) : IgnoresTrace (note event : Execution ω Unit) := by
  intro earlier s
  show EStateM.Result.ok () _ = EStateM.Result.ok () _
  congr 1
  show (⟨_, _, (earlier ++ s.trace).push event⟩ : Interpreter ω) = ⟨_, _, earlier ++ _⟩
  rw [Array.append_push]
  rfl

theorem ignoresTrace_ofEvaluation (m : Evaluation α) :
    IgnoresTrace (ofEvaluation m : Execution ω α) := by
  intro earlier s
  have henvironment : (s.behind earlier).environment = s.environment := rfl
  rw [ofEvaluation, ofEvaluation, henvironment]
  cases m s.environment <;> rfl

theorem ignoresTrace_ofWriting (m : EStateM WriteError ω α) : IgnoresTrace (ofWriting m) := by
  intro earlier s
  have houtput : (s.behind earlier).output = s.output := rfl
  rw [ofWriting, ofWriting, houtput]
  cases m s.output <;> rfl

theorem IgnoresTrace.tryCatch {m : Execution ω α} {handle : Failure → Execution ω α}
    (h : m.IgnoresTrace) (hh : ∀ f, (handle f).IgnoresTrace) :
    IgnoresTrace (tryCatch m handle) := by
  intro earlier s
  have hm := h earlier s
  show EStateM.tryCatch m handle _ = resultBehind earlier (EStateM.tryCatch m handle s)
  unfold EStateM.tryCatch
  cases hs : m s with
  | ok a t =>
      rw [hs] at hm
      rw [hm]
      rfl
  | error f t =>
      rw [hs] at hm
      rw [hm]
      exact hh f earlier t

theorem ignoresTrace_openScope (inside : Nat) :
    IgnoresTrace (openScope inside : Execution ω Nat) := by
  intro earlier s
  exact (ignoresTrace_note (.opened s.environment.scopes.size inside)).bind
    (fun _ => ignoresTrace_pure s.environment.scopes.size) earlier
    { s with environment := s.environment.openScope inside }

theorem ignoresTrace_closeScope (scope : Nat) :
    IgnoresTrace (closeScope scope : Execution ω Unit) :=
  (ignoresTrace_note _).bind fun _ _ _ => rfl

theorem IgnoresTrace.inScope {inside : Nat} {run : Nat → Execution ω Unit}
    (h : ∀ inner, (run inner).IgnoresTrace) : IgnoresTrace (inScope inside run) := by
  refine (ignoresTrace_openScope inside).bind fun scope => ?_
  refine IgnoresTrace.bind ?_ fun _ => ignoresTrace_closeScope scope
  refine (h scope).tryCatch fun f => ?_
  cases f with
  | misfit => exact fun _ _ => rfl
  | runtime | output => exact (ignoresTrace_closeScope scope).bind fun _ _ _ => rfl

end Execution

namespace Stmt

variable [Writer ω]

mutual

theorem ignoresTrace_execute (st : Stmt) (scope : Nat) :
    IgnoresTrace (st.execute scope : Execution ω Unit) := by
  have hstep : ∀ (form : Form) {m : Execution ω Unit}, m.IgnoresTrace →
      IgnoresTrace (note (.executing form) >>= fun _ => m) :=
    fun form _ h => (ignoresTrace_note (.executing form)).bind fun _ => h
  cases st with
  | expression e =>
      exact hstep _ ((ignoresTrace_ofEvaluation _).bind fun _ => ignoresTrace_pure _)
  | print e =>
      exact hstep _ ((ignoresTrace_ofEvaluation _).bind fun _ =>
        (ignoresTrace_ofWriting _).bind fun _ => ignoresTrace_ofWriting _)
  | declare name initializer =>
      cases initializer with
      | none => exact hstep _ fun _ _ => rfl
      | some e => exact hstep _ ((ignoresTrace_ofEvaluation _).bind fun _ _ _ => rfl)
  | block body =>
      exact hstep _ (IgnoresTrace.inScope fun inner => ignoresTrace_executeAll body inner)
  | ifThen c st =>
      refine hstep _ ((ignoresTrace_ofEvaluation _).bind fun v => ?_)
      split
      · exact ignoresTrace_execute st scope
      · exact ignoresTrace_pure _
  | ifElse c st st' =>
      refine hstep _ ((ignoresTrace_ofEvaluation _).bind fun v => ?_)
      split
      · exact ignoresTrace_execute st scope
      · exact ignoresTrace_execute st' scope

theorem ignoresTrace_executeAll (ss : List Stmt) (scope : Nat) :
    IgnoresTrace (executeAll scope ss : Execution ω Unit) := by
  cases ss with
  | nil => exact ignoresTrace_pure _
  | cons st ss =>
      exact (ignoresTrace_execute st scope).bind fun _ => ignoresTrace_executeAll ss scope

end

end Stmt

theorem Interpreter.ignoresTrace_interpret [Writer ω] (ss : List Stmt) :
    IgnoresTrace (interpret ss : Execution ω Unit) := by
  refine (Stmt.ignoresTrace_executeAll ss _).tryCatch fun f => ?_
  cases f with
  | misfit => exact fun _ _ => rfl
  | runtime | output => exact (ignoresTrace_note _).bind fun _ _ _ => rfl

end Lox
