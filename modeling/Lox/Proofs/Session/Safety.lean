import Mathlib.Tactic
import Lox.Proofs.Run.Scopes
import Lox.Proofs.Session.Source

set_option autoImplicit false

/-! # Nothing goes wrong in a session

Whatever sources and tokens an interpreter has been given, no operator is ever a misfit, since only
trees that were read from tokens are executed, and every scope that closes is the last one
(`Interpreter.used_safe`). The lines of a source are counted without running over as long as they
fit the counter.
-/

namespace Lox

open Semantics

variable {ω : Type} [Writer ω]

namespace Interpreter

/-- The interpreters that come about, from a new one that writes to `output`, by executing what was
read from tokens and by running sources, with and without faults. -/
inductive Used (output : ω) : Interpreter ω → Prop
  | new : Used output (.initial output)
  | interpret {s t : Interpreter ω} {ts : List Token} {r : Except Failure Unit}
      (h : Used output s) (hr : interpret (Program.ofTokens ts).statements s = ended r t) :
      Used output t
  | run {s t : Interpreter ω} {source : String} {r : Except RunError Unit} (h : Used output s)
      (hr : run source s = ended r t) : Used output t
  | recover {s t : Interpreter ω} {source : String} {r : Except Failure Unit}
      (h : Used output s) (hr : recover (Reading.ofString source) s = ended r t) : Used output t

/-- What was read from tokens has an outcome. -/
theorem interpret_ofTokens (ts : List Token) {s : Interpreter ω} {σ : State ω}
    (hrep : s.Represents Environment.global σ) :
    ∃ (o : Outcome) (σ' : State ω) (t : Interpreter ω),
      interpret (Program.ofTokens ts).statements s = ended o.result t ∧
        t.Represents Environment.global σ' := by
  obtain ⟨o, σ', hex⟩ := (Program.allFit_statements ts).exists_executesAll hrep
  obtain ⟨t, hrun, hrep'⟩ := interpret_of_executesAll hex hrep
  exact ⟨o, σ', t, hrun, hrep'⟩

/-- A used interpreter has the global scope only. -/
theorem Used.represents {output : ω} {s : Interpreter ω} (h : Used output s) :
    ∃ σ, s.Represents Environment.global σ := by
  -- along the uses
  induction h with
  | new => exact ⟨_, represents_initial output⟩
  | @interpret s t ts r _ hr ih =>
      obtain ⟨σ, hrep⟩ := ih
      obtain ⟨o, σ', t', hrun, hrep'⟩ := interpret_ofTokens ts hrep
      obtain ⟨-, rfl⟩ := ended_inj.mp (hr.symm.trans hrun)
      exact ⟨σ', hrep'⟩
  | @run s t source r _ hr ih =>
      obtain ⟨σ, hrep⟩ := ih
      rcases run_cases source hrep with ⟨d, ds, t', hrun, hrep'⟩ | ⟨-, o, σ', t', -, -, hrun, hrep'⟩
      · obtain ⟨-, rfl⟩ := ended_eq_error.mp (hr.symm.trans hrun)
        exact ⟨σ, hrep'⟩
      · obtain ⟨-, rfl⟩ := ended_inj.mp (hr.symm.trans hrun)
        exact ⟨σ', hrep'⟩
  | @recover s t source r _ hr ih =>
      obtain ⟨σ, hrep⟩ := ih
      obtain ⟨o, σ', t', hrun, hrep'⟩ := interpret_ofTokens (Scan.ofString source).tokens
        (hrep.announce (Reading.ofString source))
      obtain ⟨-, rfl⟩ := ended_inj.mp (hr.symm.trans hrun)
      exact ⟨σ', hrep'⟩

end Interpreter

/-- The token and error lines of a source fit a counter of 32 bits. -/
theorem Scan.lines_lt {source : String} (h : source.toList.count '\n' < 2 ^ 32 - 1) :
    (∀ t ∈ (Scan.ofString source).tokens, t.line < 2 ^ 32) ∧
      ∀ e ∈ (Scan.ofString source).errors, e.line < 2 ^ 32 := by
  constructor
  · intro t ht
    obtain ⟨item, hmem, hitem⟩ := List.mem_filterMap.mp ht
    have hle := Token.Stream.line_le_of_mem_items hmem
    cases item with
    | error e => cases hitem
    | ok u =>
        cases hitem
        simp only [Item.line] at hle
        omega
  · intro e he
    obtain ⟨item, hmem, hitem⟩ := List.mem_filterMap.mp he
    have hle := Token.Stream.line_le_of_mem_items hmem
    cases item with
    | ok u => cases hitem
    | error e =>
        cases hitem
        simp only [Item.line] at hle
        omega

namespace Interpreter

/-- **Safety.** Statements that were read from tokens fit, and with an interpreter that has only
executed such statements they have an outcome; whenever a scope closes it is the last one. No source
comes upon a misfit operator, with or without its faulty parts, and its lines fit the counter unless
it has too many of them. -/
theorem used_safe {output : ω} {s : Interpreter ω} (h : Used output s) :
    (∀ ts, Stmt.AllFit (Program.ofTokens ts).statements ∧
      (∃ (o : Outcome) (t : Interpreter ω),
        interpret (Program.ofTokens ts).statements s = ended o.result t) ∧
      ∀ m, Interpreter.Visits (Program.ofTokens ts).statements s m →
        m.scope + 1 = m.interpreter.environment.scopes.size) ∧
    ∀ source : String,
      (∀ operator t, run source s ≠ .error (.failed (.misfit operator)) t) ∧
      (∀ operator t, recover (Reading.ofString source) s ≠ .error (.misfit operator) t) ∧
      (source.toList.count '\n' < 2 ^ 32 - 1 →
        (∀ t ∈ (Scan.ofString source).tokens, t.line < 2 ^ 32) ∧
          ∀ e ∈ (Scan.ofString source).errors, e.line < 2 ^ 32) := by
  obtain ⟨σ, hrep⟩ := h.represents
  refine ⟨fun ts => ⟨Program.allFit_statements ts, ?_, ?_⟩, fun source => ⟨?_, ?_, Scan.lines_lt⟩⟩
  · obtain ⟨o, σ', t, hrun, -⟩ := interpret_ofTokens ts hrep
    exact ⟨o, t, hrun⟩
  · intro m hm
    obtain ⟨⟨σ', hrep'⟩, -⟩ := hm.represents hrep
    exact hrep'.frames.size.symm
  · intro operator t hrun
    rcases run_cases source hrep with ⟨d, ds, t', hrun', -⟩ | ⟨-, o, -, t', -, -, hrun', -⟩
    · cases hrun.symm.trans hrun'
    · rw [hrun'] at hrun
      cases o <;> cases hrun
  · intro operator t hrun
    obtain ⟨o, σ', t', hrun', -⟩ := interpret_ofTokens (Scan.ofString source).tokens
      (hrep.announce (Reading.ofString source))
    exact absurd (hrun'.symm.trans hrun) Outcome.ended_ne_misfit

/-- What was kept of a faulty source can be executed again after it has failed. -/
theorem used_safe_recovered :
    ∃ s, Used Sink.unbounded s ∧
      (∃ (o : Outcome) (t : Interpreter Sink),
        interpret (Program.ofTokens (Scan.ofString "-nil; )").tokens).statements s =
          ended o.result t) ∧
      (∀ operator t, recover (Reading.ofString "-nil; )") s ≠ .error (.misfit operator) t) ∧
      ∀ t ∈ (Scan.ofString "-nil; )").tokens, t.line < 2 ^ 32 := by
  have hstatements : (Program.ofTokens (Scan.ofString "-nil; )").tokens).statements =
      [.expression (.unary ⟨.minus, "-", none, 1⟩ (.literal .nil))] := by decide +kernel
  have hrun : ∃ t, recover (Reading.ofString "-nil; )") (.initial Sink.unbounded) =
      ended (.error (.runtime ⟨⟨.minus, "-", none, 1⟩, .operandsNotNumbers⟩)) t := by
    have hcall : ∃ t, interpret [.expression (.unary ⟨.minus, "-", none, 1⟩ (.literal .nil))]
        ((initial Sink.unbounded).announce (Reading.ofString "-nil; )")) =
          ended (.error (.runtime ⟨⟨.minus, "-", none, 1⟩, .operandsNotNumbers⟩)) t := ⟨_, rfl⟩
    rwa [← hstatements] at hcall
  obtain ⟨s, hrun⟩ := hrun
  have hused : Used Sink.unbounded s := .recover .new hrun
  obtain ⟨htokens, hsources⟩ := used_safe hused
  obtain ⟨-, hrecover, hlines⟩ := hsources "-nil; )"
  exact ⟨s, hused, (htokens _).2.1, hrecover, (hlines (by decide +kernel)).1⟩

end Interpreter

end Lox
