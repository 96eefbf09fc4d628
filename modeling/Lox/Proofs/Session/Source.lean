import Mathlib.Tactic
import Lox.Proofs.Parse.Tree
import Lox.Proofs.Run.Refinement
import Lox.Proofs.Run.Relabel
import Lox.Proofs.Scan.Join
import Lox.Session

set_option autoImplicit false

/-! # Running a source

A source is either faulty, and then it changes nothing but the trace, or it is a program, and then
running it is a call with the statements of this program (`Interpreter.run_cases`). Two programs
with a line break between them are one program, that of both in turn (`Faultless.join`).
-/

namespace Lox

open Semantics

/-! ## Programs -/

/-- The source has no faults, and it is the program `ss`. -/
structure Faultless (source : String) (ss : List Stmt) : Prop where
  scan : (Scan.ofString source).errors = []
  program : Program.ofTokens (Scan.ofString source).tokens = ⟨ss, []⟩

namespace Faultless

variable {source next : String} {ss ss' : List Stmt}

theorem allFit (h : Faultless source ss) : Stmt.AllFit ss := by
  have hfits := Program.allFit_statements (Scan.ofString source).tokens
  rwa [h.program] at hfits

theorem statements_eq (h : Faultless source ss) :
    (Reading.ofString source).program.statements = ss :=
  congrArg Program.statements h.program

theorem diagnostics_eq (h : Faultless source ss) : (Reading.ofString source).diagnostics = [] := by
  show (Scan.ofString source).errors.map _ ++
    (Program.ofTokens (Scan.ofString source).tokens).errors.map _ = []
  rw [h.scan, h.program]
  rfl

/-- The program that a source without faults is. -/
theorem of_diagnostics (h : (Reading.ofString source).diagnostics = []) :
    Faultless source (Reading.ofString source).program.statements := by
  obtain ⟨hscan, hparse⟩ := List.append_eq_nil_iff.mp h
  refine ⟨List.map_eq_nil_iff.mp hscan, ?_⟩
  have herrors : (Program.ofTokens (Scan.ofString source).tokens).errors = [] :=
    List.map_eq_nil_iff.mp hparse
  show _ = (⟨(Program.ofTokens (Scan.ofString source).tokens).statements, []⟩ : Program)
  rw [← herrors]

/-- The empty source is a program without statements. -/
theorem empty : Faultless "" [] := ⟨by decide +kernel, by decide +kernel⟩

/-- A program, a line break and another program are the program of both, the second one further
down. -/
theorem join (h : Faultless source ss) (h' : Faultless next ss') :
    Faultless (source ++ "\n" ++ next)
      (ss ++ Stmt.mapTokensAll (Token.later (source.toList.count '\n' + 1)) ss') := by
  obtain ⟨ts, hts, htokens, hjoin⟩ := Scan.ofString_join h.scan
  obtain ⟨us, hus, husTokens, -⟩ := Scan.ofString_join h'.scan
  have hfirst : Grammar.Strict ts ss := by
    have hprogram := h.program
    rw [htokens] at hprogram
    exact (Program.ofTokens_eq_iff_strict (Program.body_concat hts rfl)).mp hprogram
  have hsecond : Grammar.Strict us ss' := by
    have hprogram := h'.program
    rw [husTokens] at hprogram
    exact (Program.ofTokens_eq_iff_strict (Program.body_concat hus rfl)).mp hprogram
  refine ⟨by rw [hjoin, h'.scan]; rfl, ?_⟩
  rw [hjoin, husTokens, List.map_append, ← List.append_assoc]
  refine (Program.ofTokens_eq_iff_strict (Program.body_concat ?_ rfl)).mpr
    (hfirst.append (hsecond.mapTokens (Token.kind_later _) (Token.literal_later _)))
  intro t ht
  rcases List.mem_append.mp ht with ht | ht
  · exact hts t ht
  · obtain ⟨u, hu, rfl⟩ := List.mem_map.mp ht
    exact hus u hu

end Faultless

/-! ## Runs -/

/-- What a run comes to if its program has the outcome. -/
def Semantics.Outcome.runResult (o : Outcome) : Except RunError Unit :=
  o.result.mapError .failed

/-- Whether a run comes to nothing because the source is faulty. -/
def RunError.isFaulty : RunError → Bool
  | faulty _ => true
  | failed _ => false

namespace Interpreter

variable {ω : Type}

theorem Represents.announce {s : Interpreter ω} {scope : Nat} {σ : State ω}
    (h : s.Represents scope σ) (r : Reading) : (s.announce r).Represents scope σ :=
  ⟨h.frames, h.sink⟩

variable [Writer ω] {source : String} {s : Interpreter ω} {σ : State ω}

/-- A faulty source is not executed. -/
theorem run_of_faulty (h : (Reading.ofString source).diagnostics ≠ []) :
    run source s =
      .error (.faulty (Reading.ofString source).diagnostics)
        (s.announce (Reading.ofString source)) := by
  unfold run
  cases hd : (Reading.ofString source).diagnostics with
  | nil => exact absurd hd h
  | cons d ds => simp only [hd]

/-- Running a program is a call with its statements. -/
theorem run_of_faultless {ss : List Stmt} (h : Faultless source ss) {r : Except Failure Unit}
    {t : Interpreter ω}
    (hcall : interpret ss (s.announce (Reading.ofString source)) = ended r t) :
    run source s = ended (r.mapError .failed) t := by
  unfold run
  simp only [h.diagnostics_eq, recover, h.statements_eq, hcall]
  cases r <;> rfl

/-- What the semantics says of a program is what running it comes to. -/
theorem run_of_executesAll {ss : List Stmt} (h : Faultless source ss) {o : Outcome} {σ' : State ω}
    (hex : ExecutesAll ss σ o σ') (hrep : s.Represents Environment.global σ) :
    ∃ t, run source s = ended o.runResult t ∧ t.Represents Environment.global σ' := by
  obtain ⟨t, hcall, hrep'⟩ := interpret_of_executesAll hex (hrep.announce _)
  exact ⟨t, run_of_faultless h hcall, hrep'⟩

/-- A run of a faulty source leaves the state as it is, and a run of a program comes to what the
semantics says of it. -/
theorem run_cases (source : String) (hrep : s.Represents Environment.global σ) :
    (∃ d ds t, run source s = .error (.faulty (d :: ds)) t ∧
        t.Represents Environment.global σ) ∨
      ∃ ss o σ' t, Faultless source ss ∧ ExecutesAll ss σ o σ' ∧
        run source s = ended o.runResult t ∧ t.Represents Environment.global σ' := by
  cases hd : (Reading.ofString source).diagnostics with
  | nil =>
      have hfaultless := Faultless.of_diagnostics hd
      obtain ⟨o, σ', hex⟩ := hfaultless.allFit.exists_executesAll hrep
      obtain ⟨t, hrun, hrep'⟩ := run_of_executesAll hfaultless hex hrep
      exact .inr ⟨_, o, σ', t, hfaultless, hex, hrun, hrep'⟩
  | cons d ds =>
      have hrun := run_of_faulty (s := s) (h := by rw [hd]; exact List.cons_ne_nil d ds)
      rw [hd] at hrun
      exact .inl ⟨d, ds, _, hrun, hrep.announce _⟩

end Interpreter

end Lox
