import Mathlib.Tactic
import Lox.Proofs.Run.Relabel
import Lox.Proofs.Run.Scopes

set_option autoImplicit false

/-! # Tokens and their counterparts

Two lists of tokens are counterparts if they agree on kinds and literals, place by place, and if the
names in the second one are those in the first one under an injective map; the lines and all other
lexemes may be others. They are read as one and the same program but for the tokens in it, and to
execute what was kept of them comes to the same, but for the token that is blamed and the names of
the variables (`Program.counterparts`).

That a token stands for its counterpart *in the same place* is told by a program whose tokens have
their places for lines (`Token.placed`), into which the tokens of either list are put
(`Token.standing`).
-/

namespace Lox

open Semantics
open Execution
open Interpreter (between interpret)

namespace Token

/-! ## Counterparts -/

/-- The tokens have the same kind and literal, and a name is renamed. -/
@[mk_iff]
structure Counterpart (ρ : String → String) (t u : Token) : Prop where
  kind : u.kind = t.kind
  literal : u.literal = t.literal
  name : t.kind = .identifier → u.lexeme = ρ t.lexeme

variable {ρ : String → String} {ts us : List Token}

theorem counterpart_self (t : Token) : Counterpart id t t := ⟨rfl, rfl, fun _ => rfl⟩

/-- The counterpart of a placed token is in its place. -/
theorem counterpart_standing (h : List.Forall₂ (Counterpart ρ) ts us) {m : Token}
    (hm : m ∈ placed ts) : Counterpart ρ m (standing us m) := by
  obtain ⟨i, hi⟩ := List.mem_iff_getElem?.mp hm
  rw [getElem?_placed] at hi
  obtain ⟨t, ht, rfl⟩ := Option.map_eq_some_iff.mp hi
  obtain ⟨hlt, rfl⟩ := List.getElem?_eq_some_iff.mp ht
  have hlt' : i < us.length := h.length_eq ▸ hlt
  have hi : Counterpart ρ ts[i] us[i] := h.get hlt hlt'
  have hstanding : standing us { ts[i] with line := i } = us[i] := by
    simp [standing, hlt']
  rw [hstanding]
  exact ⟨hi.kind, hi.literal, hi.name⟩

end Token

open Token (Counterpart placed standing)

/-! ## Programs -/

namespace Program

variable {ρ : String → String}

/-- With counterparts of its tokens, and with corresponding global variables, a program does the
same. -/
theorem interpret_renamed (hρ : Function.Injective ρ) {ts : List Token} {f : Token → Token}
    (hf : ∀ t ∈ ts, Counterpart ρ t (f t)) (heof : ∃ t ∈ ts, t.kind = .eof) {ω : Type} [Writer ω]
    {bindings bindings' : Std.ExtTreeMap String Value} {output : ω} {o : Outcome} {σ : State ω}
    (hex : ExecutesAll (ofTokens ts).statements ⟨[bindings], output⟩ o σ)
    (hb : Corresponds ρ bindings bindings') (trace : Array Event) :
    ∃ t, interpret (ofTokens (ts.map f)).statements (between bindings' output trace) =
        ended (o.rename f ρ).result t ∧
      t.output = σ.sink ∧ Frames.Correspond ρ σ.frames [t.globals] := by
  obtain ⟨g, hg, hfg⟩ := exists_extends (R := fun t u => u.kind = t.kind) (fun _ => rfl)
    fun t ht => (hf t ht).kind
  have hstored : ∀ t ∈ Stmt.storedAll (ofTokens ts).statements, f t = g t := fun t ht =>
    hfg t (mem_of_mem_tokens heof (List.mem_append_left _ ht))
  have hstatements : (ofTokens (ts.map f)).statements =
      Stmt.mapTokensAll g (ofTokens ts).statements := by
    rw [ofTokens_map_of_mem (fun t ht => ⟨(hf t ht).kind, (hf t ht).literal⟩) heof]
    exact (Stmt.mapTokensAll_inj _).mpr hstored
  have hnames : ∀ name ∈ Stmt.namesAll (ofTokens ts).statements, Renames g ρ name := by
    intro name hname
    obtain ⟨hmem, hk⟩ := List.mem_filter.mp (namesAll_subset ts hname)
    rw [Renames, ← hfg name hmem]
    exact (hf name hmem).name (of_decide_eq_true hk)
  have houtcome : o.rename f ρ = o.rename g ρ :=
    o.rename_congr ρ fun t ht => hstored t (hex.blamed_mem_storedAll ht)
  obtain ⟨ns, hrun, hns⟩ := hex.renamed hg hρ hnames (.cons hb .nil)
  rw [← hstatements, ← houtcome] at hrun
  obtain ⟨t, hcall, hσ⟩ := Interpreter.interpret_between hrun trace
  obtain ⟨rfl, houtput⟩ := State.mk.inj hσ
  exact ⟨t, hcall, houtput.symm, hns⟩

/-- **Counterparts.** Two lists of counterparts are read as the same program, with the tokens of the
one list or the other in its places. From global variables that correspond, what was kept of the two
comes to the same output and to global variables that correspond, and it ends in the same way: a
runtime error blames the tokens that are in one place, and is about a variable and the renamed one
or has the same cause. -/
theorem counterparts (hρ : Function.Injective ρ) {ts us : List Token}
    (h : List.Forall₂ (Counterpart ρ) ts us) (heof : ∃ t ∈ ts, t.kind = .eof) :
    ∃ p : Program, (∀ m ∈ p.tokens, m ∈ placed ts) ∧
      ofTokens ts = p.mapTokens (standing ts) ∧ ofTokens us = p.mapTokens (standing us) ∧
      ∀ {ω : Type} [Writer ω] (output : ω) (trace trace' : Array Event)
        (bindings bindings' : Std.ExtTreeMap String Value), Corresponds ρ bindings bindings' →
        ∃ (o : Outcome) (t t' : Interpreter ω), (∀ m ∈ o.blamed, m ∈ placed ts) ∧
          interpret (ofTokens ts).statements (between bindings output trace) =
            ended (o.mapToken (standing ts)).result t ∧
          interpret (ofTokens us).statements (between bindings' output trace') =
            ended (o.rename (standing us) ρ).result t' ∧
          t'.output = t.output ∧ Corresponds ρ t.globals t'.globals := by
  have hself : List.Forall₂ (Counterpart id) ts ts :=
    List.forall₂_same.mpr fun t _ => t.counterpart_self
  have heof' := Token.exists_eof_placed heof
  have hts : (placed ts).map (standing ts) = ts := Token.map_standing rfl
  have hus : (placed ts).map (standing us) = us := Token.map_standing h.length_eq
  have hf := fun m hm => Token.counterpart_standing hself (m := m) hm
  have hg := fun m hm => Token.counterpart_standing h (m := m) hm
  refine ⟨ofTokens (placed ts), fun m => mem_of_mem_tokens heof', ?_, ?_, ?_⟩
  · rw [← ofTokens_map_of_mem (fun m hm => ⟨(hf m hm).kind, (hf m hm).literal⟩) heof', hts]
  · rw [← ofTokens_map_of_mem (fun m hm => ⟨(hg m hm).kind, (hg m hm).literal⟩) heof', hus]
  · intro ω _ output trace trace' bindings bindings' hb
    obtain ⟨o, σ, hex⟩ := (allFit_statements (placed ts)).exists_executesAll
      (Interpreter.represents_between bindings output trace)
    obtain ⟨t, ht, htoutput, htglobals⟩ := interpret_renamed Function.injective_id hf heof' hex
      (.self bindings) trace
    obtain ⟨t', ht', htoutput', htglobals'⟩ := interpret_renamed hρ hg heof' hex hb trace'
    rw [hts, Outcome.rename_id] at ht
    rw [hus] at ht'
    rw [← htglobals.eq_of_id] at htglobals'
    refine ⟨o, t, t', ?_, ht, ht', htoutput'.trans htoutput.symm, ?_⟩
    · exact fun m hm => mem_of_mem_tokens heof'
        (List.mem_append_left _ (hex.blamed_mem_storedAll hm))
    · exact (List.forall₂_cons.mp htglobals').1

/-- The tokens of `var x; ); y = x;` with an end, all on one line. -/
def faultyAssignment (line : Nat) (x y : String) : List Token :=
  [⟨.kwVar, "var", none, line⟩, ⟨.identifier, x, none, line⟩, ⟨.semicolon, ";", none, line⟩,
   ⟨.rightParen, ")", none, line⟩, ⟨.semicolon, ";", none, line⟩, ⟨.identifier, y, none, line⟩,
   ⟨.equal, "=", none, line⟩, ⟨.identifier, x, none, line⟩, ⟨.semicolon, ";", none, line⟩,
   .endOn line]

/-- To assign to a name that is not declared fails. -/
theorem executesAll_assignment {ω : Type} [Writer ω] {x y : Token} (h : x.lexeme ≠ y.lexeme)
    (output : ω) :
    ∃ σ, ExecutesAll [.declare x none, .expression (.assign y (.var x))] ⟨[∅], output⟩
      (.runtime (unbound y)) σ := by
  have hx : Frames.get? x.lexeme [(∅ : Std.ExtTreeMap String Value).insert x.lexeme .nil] =
      some .nil := by simp [Frames.get?]
  have hy : Frames.assign? y.lexeme .nil
      [(∅ : Std.ExtTreeMap String Value).insert x.lexeme .nil] = none := by
    simp [Frames.assign?, h]
  exact ⟨_, .cons .declare
    (.fails (.expressionFails (.assignUnbound (.var hx) hy)) Outcome.noConfusion)⟩

/-- With two names exchanged and on another line, an assignment fails at the other name, behind a
fault as well. -/
theorem counterparts_exchanged :
    Function.Injective (Equiv.swap "a" "b") ∧
      List.Forall₂ (Counterpart (Equiv.swap "a" "b")) (faultyAssignment 1 "a" "b")
        (faultyAssignment 2 "b" "a") ∧
      (∃ t ∈ faultyAssignment 1 "a" "b", t.kind = .eof) ∧
      ∃ t t' : Interpreter Sink,
        interpret (ofTokens (faultyAssignment 1 "a" "b")).statements (between ∅ .unbounded #[]) =
          .error (.runtime ⟨⟨.identifier, "b", none, 1⟩, .undefinedVariable "b"⟩) t ∧
        interpret (ofTokens (faultyAssignment 2 "b" "a")).statements (between ∅ .unbounded #[]) =
          .error (.runtime ⟨⟨.identifier, "a", none, 2⟩, .undefinedVariable "a"⟩) t' ∧
        t'.output = t.output ∧ Corresponds (Equiv.swap "a" "b") t.globals t'.globals := by
  have hρ : Function.Injective (Equiv.swap "a" "b") := (Equiv.swap "a" "b").injective
  have hcounterparts : List.Forall₂ (Counterpart (Equiv.swap "a" "b"))
      (faultyAssignment 1 "a" "b") (faultyAssignment 2 "b" "a") := by
    simp [faultyAssignment, Token.endOn, Token.counterpart_iff]
  have heof : ∃ t ∈ faultyAssignment 1 "a" "b", t.kind = .eof := by decide
  have hfirst : (ofTokens (faultyAssignment 1 "a" "b")).statements =
      [.declare ⟨.identifier, "a", none, 1⟩ none, .expression
        (.assign ⟨.identifier, "b", none, 1⟩ (.var ⟨.identifier, "a", none, 1⟩))] := by
    decide +kernel
  have hsecond : (ofTokens (faultyAssignment 2 "b" "a")).statements =
      [.declare ⟨.identifier, "b", none, 2⟩ none, .expression
        (.assign ⟨.identifier, "a", none, 2⟩ (.var ⟨.identifier, "b", none, 2⟩))] := by
    decide +kernel
  obtain ⟨σ, hex⟩ := executesAll_assignment (x := ⟨.identifier, "a", none, 1⟩)
    (y := ⟨.identifier, "b", none, 1⟩) (by decide) Sink.unbounded
  obtain ⟨σ', hex'⟩ := executesAll_assignment (x := ⟨.identifier, "b", none, 2⟩)
    (y := ⟨.identifier, "a", none, 2⟩) (by decide) Sink.unbounded
  rw [← hfirst] at hex
  rw [← hsecond] at hex'
  obtain ⟨u, hu, -⟩ := Interpreter.interpret_between hex #[]
  obtain ⟨u', hu', -⟩ := Interpreter.interpret_between hex' #[]
  obtain ⟨-, -, -, -, hrun⟩ := counterparts hρ hcounterparts heof
  obtain ⟨o, t, t', -, ht, ht', houtput, hglobals⟩ := hrun Sink.unbounded #[] #[] ∅ ∅ (.empty _)
  obtain ⟨-, rfl⟩ := ended_inj.mp (ht.symm.trans hu)
  obtain ⟨-, rfl⟩ := ended_inj.mp (ht'.symm.trans hu')
  exact ⟨hρ, hcounterparts, heof, t, t', hu, hu', houtput, hglobals⟩

end Program

end Lox
