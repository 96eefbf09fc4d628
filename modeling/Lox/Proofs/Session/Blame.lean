import Mathlib.Tactic
import Lox.Proofs.Run.Blame
import Lox.Proofs.Session.Safety

set_option autoImplicit false

/-! # The right token of the right source

A run that ends with a runtime error blames a token of its own source, whatever was run before on
the same interpreter (`Interpreter.run_blames`). The token is in the program as the name or operator
of the node at which the evaluation failed.
-/

namespace Lox

open Semantics

/-- The lines of a source are numbered from 1 on, and there is one more than line breaks. -/
theorem Scan.line_bounds {source : String} {t : Token} (h : t ∈ (Scan.ofString source).tokens) :
    1 ≤ t.line ∧ t.line ≤ 1 + source.toList.count '\n' := by
  obtain ⟨item, hmem, hitem⟩ := List.mem_filterMap.mp h
  obtain ⟨s, s', hs, hnext⟩ := Token.Stream.mem_items_iff.mp hmem
  obtain ⟨before, hbefore⟩ := Token.Stream.Reaches.isAt (hs.tail ⟨item, hnext⟩)
  have hline := Token.Stream.line_of_next? hnext
  have hle := Token.Stream.line_le_of_mem_items hmem
  rw [hbefore.line] at hline
  cases item with
  | error e => cases hitem
  | ok u =>
      cases hitem
      simp only [Item.line] at hline hle
      omega

/-- The end of a source is among its tokens. -/
theorem Scan.exists_eof (source : String) : ∃ t ∈ (Scan.ofString source).tokens, t.kind = .eof := by
  obtain ⟨ts, line, htokens, -⟩ := exists_tokens_eq source
  exact ⟨.endOn line, by simp [htokens], rfl⟩

/-- The nodes that read or assign a variable name it by an identifier. -/
theorem Program.kind_eq_identifier {ts : List Token} {node : Expr} {name : Token}
    (hnode : node ∈ Stmt.nodesAll (ofTokens ts).statements)
    (hname : node = .var name ∨ ∃ value, node = .assign name value) : name.kind = .identifier := by
  have hmem : name ∈ node.names := by
    rcases hname with rfl | ⟨value, rfl⟩
    · exact List.mem_singleton_self name
    · exact List.mem_cons_self
  obtain ⟨-, hk⟩ := List.mem_filter.mp (namesAll_subset ts (Stmt.namesAll_subset hnode hmem))
  exact of_decide_eq_true hk

namespace Interpreter

variable {ω : Type}

/-- Between two calls, the global variables are bound that the next call starts with. -/
theorem Represents.bindsAt {s : Interpreter ω} {σ : State ω}
    (h : s.Represents Environment.global σ) :
    s.environment.BindsAt s.globals .top Environment.global := by
  obtain rfl := h.eq_globals
  exact ⟨_, h.frames, .global (by simp [Stmt.declaredIn, Place.top])⟩

variable [Writer ω] {source : String} {s t : Interpreter ω} {err : RuntimeError}

/-- A run fails as the call with the statements of the source does. -/
theorem interpret_of_run_failed (h : run source s = .error (.failed (.runtime err)) t) :
    interpret (Reading.ofString source).program.statements
      (s.announce (Reading.ofString source)) = .error (.runtime err) t := by
  unfold run at h
  cases hd : (Reading.ofString source).diagnostics with
  | nil =>
      simp only [hd] at h
      split at h
      · cases h
      · next hrun =>
        cases h
        exact hrun
  | cons d ds =>
      simp only [hd] at h
      cases h

/-- What is blamed at run time is in the tree, and so it is a token of the source. -/
theorem token_mem_of_interpret {σ : State ω} (hrep : s.Represents Environment.global σ)
    (h : interpret (Reading.ofString source).program.statements s = .error (.runtime err) t) :
    err.token ∈ (Scan.ofString source).tokens := by
  obtain ⟨σ', hex, -⟩ := executesAll_of_interpret (o := .runtime err) hrep h
  have hstored := hex.blamed_mem_storedAll (List.mem_singleton_self err.token)
  exact Program.mem_of_mem_tokens (Scan.exists_eof source) (List.mem_append_left _ hstored)

/-- **Blame.** Let a run on a used interpreter end with a runtime error. The error blames a token of
the source of this run, on a line that the source has. It comes from a turn of the run, whose
statement evaluates an expression that fails. If a variable is undefined, the token is an
identifier, its name, and no scope binds the name in the environment at that moment, neither the
global one nor that of any block that is being executed. If it is a type error, the token is the
operator of a negation in the program, or of a node between two values whose operator takes only
numbers, or numbers and texts. -/
theorem run_blames {output : ω} (hs : Used output s)
    (h : run source s = .error (.failed (.runtime err)) t) :
    err.token ∈ (Scan.ofString source).tokens ∧
    1 ≤ err.line ∧ err.line ≤ 1 + source.toList.count '\n' ∧
    ∃ turn e env,
      Stmt.HaveTurn .top Environment.global (Reading.ofString source).program.statements
        (s.announce (Reading.ofString source)) turn ∧
      turn.Raises err e env ∧ env.scopes.size = turn.place.depth + 1 ∧
      (∀ x, err.cause = .undefinedVariable x →
        err.token.kind = .identifier ∧ err.token.lexeme = x ∧ ∀ i, env.slot? i x = none) ∧
      (err.cause.isTypeError →
        (err.token.kind = .minus ∧ ∃ operand, Expr.unary err.token operand ∈
          Stmt.nodesAll (Reading.ofString source).program.statements) ∨
        (err.token.kind ∈ [.plus, .minus, .star, .slash, .greater, .greaterEqual, .less,
            .lessEqual] ∧
          ∃ left right, Expr.binary left err.token right ∈
            Stmt.nodesAll (Reading.ofString source).program.statements)) := by
  obtain ⟨σ, hrep⟩ := hs.represents
  have hrep := hrep.announce (Reading.ofString source)
  have hcall := interpret_of_run_failed h
  have htoken := token_mem_of_interpret hrep hcall
  obtain ⟨hpos, hle⟩ := Scan.line_bounds htoken
  refine ⟨htoken, hpos, hle, ?_⟩
  obtain ⟨u, hrun, -⟩ := executeAll_of_interpret (o := .runtime err) hcall
  obtain ⟨turn, e, env, hturn, hraises⟩ := Stmt.exists_raisesAll (p := .top) _ hrun
  have hplaced := Program.allWellPlaced_statements (Scan.ofString source).tokens
  have hbound := hturn.isBound hplaced hrep.bindsAt
  refine ⟨turn, e, env, hturn, hraises, (hraises.chain_eq hbound).1, ?_⟩
  have hnodes := hraises.nodes_subset hturn
  -- the node of the expression at which its evaluation failed
  cases Expr.blames_of_evaluate hraises.fails with
  | name hnode hname hnone =>
      refine ⟨?_, fun htype => absurd htype Bool.false_ne_true⟩
      rintro x ⟨⟩
      exact ⟨Program.kind_eq_identifier (hnodes hnode) hname, rfl, hraises.unbound hbound hnone⟩
  | unary hnode hk htype =>
      refine ⟨fun x hx => ?_, fun _ => .inl ⟨hk, _, hnodes hnode⟩⟩
      rw [hx] at htype
      cases htype
  | binary hnode hk htype =>
      refine ⟨fun x hx => ?_, fun _ => .inr ⟨hk, _, _, hnodes hnode⟩⟩
      rw [hx] at htype
      cases htype

/-- After `print c;` has failed on its first line, a block blames the `c` on its own second line. -/
theorem run_blames_block :
    ∃ (s t : Interpreter Sink) (err : RuntimeError), Used Sink.unbounded s ∧
      run "\x7b\n c; \x7d" s = .error (.failed (.runtime err)) t ∧
      err.token ∈ (Scan.ofString "\x7b\n c; \x7d").tokens ∧ err.line = 2 ∧
      ∃ (turn : Turn Sink) (e : Expr) (env : Environment), turn.Raises err e env ∧
        ∀ i, env.slot? i "c" = none := by
  have hfirst : Faultless "print c;" [.print (.var ⟨.identifier, "c", none, 1⟩)] :=
    ⟨by decide +kernel, by decide +kernel⟩
  have hsecond : Faultless "\x7b\n c; \x7d"
      [.block [.expression (.var ⟨.identifier, "c", none, 2⟩)]] :=
    ⟨by decide +kernel, by decide +kernel⟩
  have hundefined : ExecutesAll [.print (.var ⟨.identifier, "c", none, 1⟩)]
      ⟨[∅], Sink.unbounded⟩ (.runtime (unbound ⟨.identifier, "c", none, 1⟩))
      ⟨[∅], Sink.unbounded⟩ :=
    .fails (.printFails (.varUnbound (by simp [Frames.get?]))) (by simp)
  have hagain : ExecutesAll [.block [.expression (.var ⟨.identifier, "c", none, 2⟩)]]
      ⟨[∅], Sink.unbounded⟩ (.runtime (unbound ⟨.identifier, "c", none, 2⟩))
      ⟨[∅], Sink.unbounded⟩ :=
    .fails (.block (.fails (.expressionFails (.varUnbound (by simp [Frames.get?]))) (by simp)))
      (by simp)
  obtain ⟨s, hs, hrep⟩ := run_of_executesAll hfirst hundefined (represents_initial Sink.unbounded)
  obtain ⟨t, ht, -⟩ := run_of_executesAll hsecond hagain hrep
  have hused : Used Sink.unbounded s := .run .new hs
  obtain ⟨htoken, -, -, turn, e, env, -, hraises, -, hunbound, -⟩ := run_blames hused ht
  exact ⟨s, t, _, hused, ht, htoken, rfl, turn, e, env, hraises, (hunbound "c" rfl).2.2⟩

end Interpreter

end Lox
