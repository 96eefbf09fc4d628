import Mathlib.Tactic
import Lox.Proofs.Session.Source

set_option autoImplicit false

/-! # Sources in turn and all at once

Sources are given to a new interpreter one after the other (`Interpreter.Feeds`). As long as those
that are not rejected succeed, this comes to the same as to run these sources at once, with line
breaks between them: the same output, the same global variables, and the same result, but for the
line of the token that is blamed (`Interpreter.run_joined`).
-/

namespace Lox

open Semantics

/-! ## Blame further down -/

/-- The error with its token further down. -/
def RunError.later (k : Nat) : RunError → RunError
  | faulty diagnostics => faulty diagnostics
  | failed (.runtime e) => failed (.runtime (e.mapToken (Token.later k)))
  | failed f => failed f

theorem Semantics.Outcome.runResult_later (o : Outcome) (k : Nat) :
    (o.mapToken (Token.later k)).runResult = o.runResult.mapError (RunError.later k) := by
  cases o <;> rfl

theorem Semantics.Outcome.eq_done_of_runResult {o : Outcome} (h : o.runResult = .ok ()) :
    o = done := by
  cases o with
  | done => rfl
  | runtime | output => cases h

/-! ## Sources one after the other -/

/-- Sources that were run one after the other, each with its result. -/
abbrev Feeding := List (String × Except RunError Unit)

namespace Feeding

/-- Whether a source was not rejected. -/
def isKept : String × Except RunError Unit → Bool
  | (_, .error e) => !e.isFaulty
  | (_, .ok ()) => true

/-- The sources that were not rejected. -/
def kept (fs : Feeding) : Feeding := fs.filter isKept

/-- The sources that were not rejected, with line breaks between them. -/
def joined (fs : Feeding) : String := "\n".intercalate (fs.kept.map Prod.fst)

variable {source : String} {r : Except RunError Unit}

theorem kept_append_rejected (fs : Feeding) (h : isKept (source, r) = false) :
    kept (fs ++ [(source, r)]) = fs.kept := by
  rw [kept, List.filter_append, List.filter_singleton, h]
  exact List.append_nil _

theorem kept_append_kept (fs : Feeding) (h : isKept (source, r)) :
    kept (fs ++ [(source, r)]) = fs.kept ++ [(source, r)] := by
  rw [kept, List.filter_append, List.filter_singleton, h]
  rfl

theorem isKept_runResult (source : String) (o : Outcome) : isKept (source, o.runResult) := by
  cases o <;> rfl

/-- All the sources behind which another one was kept. -/
def AllButLastOk (fs : Feeding) : Prop := ∀ f ∈ fs.kept.dropLast, f.2 = .ok ()

end Feeding

namespace Interpreter

open Feeding

variable {ω : Type} [Writer ω]

/-- `Feeds output fs s`: the sources were run one after the other, each with its result, on a new
interpreter that writes to `output`, and led to `s`. -/
inductive Feeds (output : ω) : Feeding → Interpreter ω → Prop
  | start : Feeds output [] (.initial output)
  | next {fs : Feeding} {s t : Interpreter ω} {source : String} {r : Except RunError Unit}
      (h : Feeds output fs s) (hr : run source s = ended r t) :
      Feeds output (fs ++ [(source, r)]) t

/-- The result of the last source that was kept, as an outcome of all of them at once: the blamed
token is further down by the lines in front of the source. -/
inductive LastOutcome (fs : Feeding) : Outcome → Prop
  | none (h : fs.kept = []) : LastOutcome fs .done
  | last {earlier : Feeding} {before source : String} {o : Outcome}
      (h : fs.kept = earlier ++ [(source, o.runResult)]) (hjoined : fs.joined = before ++ source) :
      LastOutcome fs (o.mapToken (Token.later (before.toList.count '\n')))

/-- What the sources come to at once: a program, with the outcome of the last of them, that leads to
the state `σ`. -/
structure Joins (output : ω) (fs : Feeding) (ss : List Stmt) (o : Outcome) (σ : State ω) :
    Prop where
  program : Faultless fs.joined ss
  executes : ExecutesAll ss ⟨[∅], output⟩ o σ
  last : LastOutcome fs o

namespace Joins

variable {output : ω} {fs : Feeding} {ss : List Stmt} {o : Outcome} {σ σ' : State ω}

theorem start : Joins output [] [] .done ⟨[∅], output⟩ := ⟨Faultless.empty, .nil, .none rfl⟩

/-- If all sources succeeded that were kept, then so do they at once. -/
theorem eq_done (h : Joins output fs ss o σ) (hok : ∀ f ∈ fs.kept, f.2 = .ok ()) : o = .done := by
  cases h.last with
  | none => rfl
  | @last earlier before source o hlast _ =>
      have hr : o.runResult = .ok () := hok (source, o.runResult) (by simp [hlast])
      rw [Outcome.eq_done_of_runResult hr]
      rfl

/-- A source that is rejected adds nothing. -/
theorem reject (h : Joins output fs ss o σ) {source : String} {r : Except RunError Unit}
    (hr : isKept (source, r) = false) : Joins output (fs ++ [(source, r)]) ss o σ := by
  have hkept := kept_append_rejected fs hr
  have hjoined : joined (fs ++ [(source, r)]) = fs.joined := by rw [joined, hkept, joined]
  refine ⟨?_, h.executes, ?_⟩
  · rw [hjoined]
    exact h.program
  · cases h.last with
    | none hnone => exact .none (hkept.trans hnone)
    | last hlast hbefore => exact .last (hkept.trans hlast) (hjoined.trans hbefore)

/-- A program behind sources that succeeded is executed where they end. -/
theorem append (h : Joins output fs ss .done σ) {source : String} {ss' : List Stmt}
    (hsource : Faultless source ss') (hex : ExecutesAll ss' σ o σ') :
    ∃ ss'' o', Joins output (fs ++ [(source, o.runResult)]) ss'' o' σ' := by
  have hkept := kept_append_kept fs (isKept_runResult source o)
  by_cases hnone : fs.kept = []
  · -- nothing is in front of the source
    have hempty : fs.joined = "" := by
      rw [joined, hnone]
      exact String.intercalate_nil
    have hjoined : joined (fs ++ [(source, o.runResult)]) = "" ++ source := by
      rw [joined, hkept, hnone, String.empty_append]
      exact String.intercalate_singleton
    obtain rfl : ss = [] := by
      have hprogram := h.program.program
      rw [hempty] at hprogram
      exact congrArg Program.statements (hprogram.symm.trans Faultless.empty.program)
    have hsame : o.mapToken (Token.later ("".toList.count '\n')) = o := by cases o <;> rfl
    cases h.executes
    refine ⟨ss', _, ⟨?_, ?_, .last hkept hjoined⟩⟩
    · rwa [hjoined, String.empty_append]
    · rwa [hsame]
  · -- the source comes behind a line break
    have hjoined : joined (fs ++ [(source, o.runResult)]) = fs.joined ++ "\n" ++ source := by
      rw [joined, hkept, List.map_append,
        String.intercalate_append_of_ne_nil (by simpa using hnone) (by simp), ← joined]
      rfl
    have hcount : (fs.joined ++ "\n").toList.count '\n' = fs.joined.toList.count '\n' + 1 := by
      simp
    have hprogram := h.program.join hsource
    rw [← hjoined, ← hcount] at hprogram
    exact ⟨_, _, hprogram,
      h.executes.append (hex.mapTokens (Token.kind_later _) (Token.lexeme_later _)),
      .last hkept hjoined⟩

end Joins

/-- Sources of which only the last may have failed lead where they lead at once. -/
theorem Feeds.joins {output : ω} {fs : Feeding} {s : Interpreter ω} (h : Feeds output fs s)
    (hok : fs.AllButLastOk) :
    ∃ ss o σ, Joins output fs ss o σ ∧ s.Represents Environment.global σ := by
  -- along the sources
  induction h with
  | start => exact ⟨[], .done, _, .start, represents_initial output⟩
  | @next fs s t source r h hr ih =>
      cases hk : isKept (source, r) with
      | false =>
          rw [AllButLastOk, kept_append_rejected fs hk] at hok
          obtain ⟨ss, o, σ, hjoins, hs⟩ := ih hok
          refine ⟨ss, o, σ, hjoins.reject hk, ?_⟩
          rcases run_cases source hs with ⟨d, ds, t', hrun, ht⟩ | ⟨-, o, -, t', -, -, hrun, -⟩
          · obtain ⟨-, rfl⟩ := ended_eq_error.mp (hr.symm.trans hrun)
            exact ht
          · obtain ⟨rfl, -⟩ := ended_inj.mp (hr.symm.trans hrun)
            rw [isKept_runResult] at hk
            cases hk
      | true =>
          -- everything that was kept before has succeeded
          have hall : ∀ f ∈ fs.kept, f.2 = .ok () := by
            rwa [AllButLastOk, kept_append_kept fs hk, List.dropLast_concat] at hok
          obtain ⟨ss, o, σ, hjoins, hs⟩ := ih fun f hf => hall f (List.mem_of_mem_dropLast hf)
          obtain rfl := hjoins.eq_done hall
          rcases run_cases source hs with
              ⟨d, ds, t', hrun, -⟩ | ⟨ss', o, σ', t', hfaultless, hex, hrun, ht⟩
          · obtain ⟨rfl, -⟩ := ended_eq_error.mp (hr.symm.trans hrun)
            cases hk
          · obtain ⟨rfl, rfl⟩ := ended_inj.mp (hr.symm.trans hrun)
            obtain ⟨ss'', o', hjoins'⟩ := hjoins.append hfaultless hex
            exact ⟨ss'', o', σ', hjoins', ht⟩

/-- A source that is rejected changes neither the variables nor the output. -/
theorem unchanged_of_faulty {source : String} {s t : Interpreter ω} {ds : List Diagnostic}
    (h : run source s = .error (.faulty ds) t) :
    t.environment = s.environment ∧ t.output = s.output := by
  cases hd : (Reading.ofString source).diagnostics with
  | nil =>
      unfold run at h
      simp only [hd] at h
      split at h <;> cases h
  | cons d ds' =>
      have hrun := run_of_faulty (s := s) (h := by rw [hd]; exact List.cons_ne_nil d ds')
      cases h.symm.trans hrun
      exact ⟨rfl, rfl⟩

/-- **Sources in turn and all at once.** Sources are run one after the other on a new interpreter,
and all that are not rejected succeed, except perhaps for the last of these. To run them at once,
without those that are rejected, leads to the same output and global variables, and to the same
result as the last of them, with the blamed token further down by the lines in front of it. What is
rejected changes nothing. -/
theorem run_joined {output : ω} {fs : Feeding} {s : Interpreter ω} (h : Feeds output fs s)
    (hok : fs.AllButLastOk) :
    (∃ r t, run fs.joined (.initial output) = ended r t ∧
      t.output = s.output ∧ t.globals = s.globals ∧
      (fs.kept = [] → r = .ok ()) ∧
      ∀ earlier source r', fs.kept = earlier ++ [(source, r')] →
        ∃ before, fs.joined = before ++ source ∧
          r = r'.mapError (RunError.later (before.toList.count '\n'))) ∧
    ∀ source ds t, run source s = .error (.faulty ds) t →
      t.environment = s.environment ∧ t.output = s.output := by
  refine ⟨?_, fun source ds t hrun => unchanged_of_faulty hrun⟩
  obtain ⟨ss, o, σ, hjoins, hs⟩ := h.joins hok
  obtain ⟨t, hrun, ht⟩ :=
    run_of_executesAll hjoins.program hjoins.executes (represents_initial output)
  have hσ := hs.eq_globals.symm.trans ht.eq_globals
  have houtput : s.output = t.output := congrArg State.sink hσ
  have hglobals : s.globals = t.globals := (List.cons.inj (congrArg State.frames hσ)).1
  refine ⟨o.runResult, t, hrun, houtput.symm, hglobals.symm, ?_, ?_⟩
  · intro hnone
    cases hjoins.last with
    | none => rfl
    | last hlast => simp [hnone] at hlast
  · intro earlier source r' hlast
    cases hjoins.last with
    | none hnone => simp [hnone] at hlast
    | @last earlier' before source' o hlast' hbefore =>
        obtain ⟨-, heq⟩ := List.append_inj' (hlast'.symm.trans hlast) rfl
        obtain ⟨rfl, rfl⟩ := Prod.mk.inj (List.singleton_inj.mp heq)
        exact ⟨before, hbefore, o.runResult_later _⟩

/-- A program, a source that is rejected, and a program that fails on its second line. -/
def failingFeed : Feeding :=
  [("var a = \"x\";", .ok ()),
   (")", .error (.faulty [.parse ⟨⟨.rightParen, ")", none, 1⟩, .missing .expression⟩])),
   ("nil;\nprint -\"x\";",
     .error (.failed (.runtime ⟨⟨.minus, "-", none, 2⟩, .operandsNotNumbers⟩)))]

/-- At once, the two programs fail on the third line. -/
theorem run_joined_failingFeed :
    ∃ s, Feeds Sink.unbounded failingFeed s ∧ failingFeed.AllButLastOk ∧
      failingFeed.joined = "var a = \"x\";\nnil;\nprint -\"x\";" ∧
      ∃ t, run failingFeed.joined (.initial Sink.unbounded) =
          .error (.failed (.runtime ⟨⟨.minus, "-", none, 3⟩, .operandsNotNumbers⟩)) t ∧
        t.output = s.output ∧ t.globals = s.globals := by
  have hfirst : Faultless "var a = \"x\";"
      [.declare ⟨.identifier, "a", none, 1⟩ (some (.literal (.string "x")))] :=
    ⟨by decide +kernel, by decide +kernel⟩
  have hlast : Faultless "nil;\nprint -\"x\";"
      [.expression (.literal .nil),
       .print (.unary ⟨.minus, "-", none, 2⟩ (.literal (.string "x")))] :=
    ⟨by decide +kernel, by decide +kernel⟩
  have hrejected : (Reading.ofString ")").diagnostics =
      [.parse ⟨⟨.rightParen, ")", none, 1⟩, .missing .expression⟩] := by decide +kernel
  have hfeeds : ∃ s, Feeds Sink.unbounded failingFeed s := by
    have hrun := run_of_faultless (s := .initial Sink.unbounded) hfirst (r := .ok ()) rfl
    have hrun' : ∀ s : Interpreter Sink, run ")" s =
        .error (.faulty (Reading.ofString ")").diagnostics) (s.announce (Reading.ofString ")")) :=
      fun s => run_of_faulty (by rw [hrejected]; simp)
    rw [hrejected] at hrun'
    exact ⟨_, .next (.next (.next .start hrun) (hrun' _))
      (run_of_faultless hlast (r := .error (.runtime _)) rfl)⟩
  have hok : failingFeed.AllButLastOk := by
    rw [Feeding.AllButLastOk]
    decide
  have hjoined : failingFeed.joined = "var a = \"x\";\nnil;\nprint -\"x\";" := by decide +kernel
  obtain ⟨s, hfeeds⟩ := hfeeds
  obtain ⟨⟨r, t, hrun, houtput, hglobals, -, hresult⟩, -⟩ := run_joined hfeeds hok
  obtain ⟨before, hbefore, rfl⟩ :=
    hresult [("var a = \"x\";", .ok ())] "nil;\nprint -\"x\";" _ rfl
  have hcount : before.toList.count '\n' = 1 := by
    have hlines := congrArg (fun text => text.toList.count '\n') (hjoined.symm.trans hbefore)
    simpa [List.count_append] using hlines
  refine ⟨s, hfeeds, hok, hjoined, t, ?_, houtput, hglobals⟩
  rw [hcount] at hrun
  exact hrun

end Interpreter

end Lox
