import Mathlib.Tactic
import Lox.Proofs.Run.Frame
import Lox.Proofs.Run.Relabel

set_option autoImplicit false

/-! # Braces around statements

A scope that nothing is bound in makes no difference. Wherever an empty map stands among the
variables, reading and assigning pass it by (`Frames.Inserted`), and statements that bind nothing
outside of their blocks leave it empty. So braces around such statements change neither what comes
of them nor the output nor the variables (`Interpreter.block_eq_of_moment`).
-/

namespace Lox

namespace Semantics

/-! ## An empty map among the variables -/

namespace Frames

/-- `Inserted n ms ns`: the maps `ns` are the maps `ms` with an empty map behind the first `n`. -/
inductive Inserted : Nat → Frames → Frames → Prop
  | here {ms : Frames} : Inserted 0 ms (∅ :: ms)
  | behind {n : Nat} {m : Std.ExtTreeMap String Value} {ms ns : Frames} (h : Inserted n ms ns) :
      Inserted (n + 1) (m :: ms) (m :: ns)

namespace Inserted

variable {n : Nat} {ms ms' ns : Frames} {x : String} {v : Value}

theorem get?_eq (h : Inserted n ms ns) (x : String) : ns.get? x = ms.get? x := by
  induction h with
  | here => simp [get?]
  | behind _ ih => rw [get?, get?, ih]

/-- What is assigned to is found behind the empty map. -/
theorem assign?_eq_some (h : Inserted n ms ns) (ha : ms.assign? x v = some ms') :
    ∃ ns', ns.assign? x v = some ns' ∧ Inserted n ms' ns' := by
  induction h generalizing ms' with
  | here =>
      refine ⟨∅ :: ms', ?_, .here⟩
      rw [assign?, if_neg Std.ExtTreeMap.not_mem_empty, ha]
      rfl
  | @behind n m ms ns h ih =>
      rw [assign?] at ha
      rw [assign?]
      by_cases hx : x ∈ m
      · rw [if_pos hx] at ha
        cases ha
        exact ⟨_, if_pos hx, .behind h⟩
      · rw [if_neg hx] at ha
        obtain ⟨ms₁, hassign, rfl⟩ := Option.map_eq_some_iff.mp ha
        obtain ⟨ns₁, hassign', h'⟩ := ih hassign
        rw [if_neg hx, hassign']
        exact ⟨_, rfl, .behind h'⟩

theorem assign?_eq_none (h : Inserted n ms ns) (ha : ms.assign? x v = none) :
    ns.assign? x v = none := by
  induction h with
  | here =>
      rw [assign?, if_neg Std.ExtTreeMap.not_mem_empty, ha]
      rfl
  | @behind n m ms ns h ih =>
      rw [assign?] at ha
      by_cases hx : x ∈ m
      · rw [if_pos hx] at ha
        cases ha
      · rw [if_neg hx, Option.map_eq_none_iff] at ha
        rw [assign?, if_neg hx, ih ha]
        rfl

end Inserted

/-- An empty map among the variables stays where it is. -/
theorem simulation_inserted : Simulation id Inserted where
  get?_eq h := h.get?_eq
  assign?_eq_some h _ _ _ := h.assign?_eq_some
  assign?_eq_none h _ _ := h.assign?_eq_none
  define h x v := by
    cases h with
    | behind h => exact .behind h
  enter h := .behind h
  exit h := by
    cases h with
    | behind h => exact ⟨_, _, rfl, h⟩

end Frames

variable {ω : Type} [Writer ω]

theorem Outcome.mapToken_id (o : Outcome) : o.mapToken id = o := by
  cases o <;> rfl

/-- Statements that bind nothing do the same in braces. -/
theorem ExecutesAll.block {body : List Stmt} {σ σ' : State ω} {o : Outcome}
    (h : ExecutesAll body σ o σ') (hb : ∀ st ∈ body, st.BindsNothing) :
    Executes (.block body) σ o σ' := by
  have hkind : ∀ t : Token, (id t).kind = t.kind := fun _ => rfl
  have hnames : ∀ name ∈ Stmt.namesAll body, Renames id id name := fun _ _ => rfl
  obtain ⟨ns, hrun, hns⟩ :=
    h.simulated hkind Frames.simulation_inserted (fun _ => hb) hnames .here
  rw [Stmt.mapTokensAll_id, Outcome.rename_id, Outcome.mapToken_id] at hrun
  -- the map of the block is still the empty one
  cases hns with
  | here => exact .block hrun

end Semantics

/-! ## Environments and their maps -/

namespace Environment

open Semantics (Frames)

theorem bindingsAt_eq_of_framesTo {env env' : Environment} {n : Nat}
    (h : env.framesTo n = env'.framesTo n) : ∀ i < n, env.bindingsAt i = env'.bindingsAt i := by
  induction n with
  | zero => exact fun i hi => absurd hi (Nat.not_lt_zero i)
  | succ n ih =>
      obtain ⟨hlast, hrest⟩ := List.cons.inj h
      intro i hi
      rcases Nat.lt_succ_iff_lt_or_eq.mp hi with hlt | rfl
      · exact ih hrest i hlt
      · exact hlast

/-- The maps say all that there is to an environment. -/
theorem Represents.unique {env env' : Environment} {scope : Nat} {ms : Frames}
    (h : env.Represents scope ms) (h' : env'.Represents scope ms) : env = env' := by
  have hbindings := bindingsAt_eq_of_framesTo (h.frames.trans h'.frames.symm)
  have hsize := h.size
  have hsize' := h'.size
  apply eq_of_scopes
  apply Array.ext
  · omega
  · intro i hi hi'
    have hat : env.scopes[i].bindings = env'.scopes[i].bindings := by
      have hi₀ := hbindings i (by omega)
      rwa [bindingsAt, bindingsAt, Array.getElem?_eq_getElem hi,
        Array.getElem?_eq_getElem hi'] at hi₀
    have hin : env.scopes[i].enclosing = env'.scopes[i].enclosing :=
      (h.stack i hi).trans (h'.stack i hi').symm
    show (⟨env.scopes[i].bindings, env.scopes[i].enclosing⟩ : Scope) = env'.scopes[i]
    rw [hat, hin]

end Environment

/-! ## At any moment -/

namespace Interpreter

open Semantics Execution

variable {ω : Type} [Writer ω]

/-- **Redundant braces.** After any calls, at every moment of a call: statements that fit and bind
nothing outside of their blocks have the same outcome in braces as without them. They leave the same
scopes with the same variables, and have written the same. -/
theorem block_eq_of_moment {output : ω} {calls : Calls} {s : Interpreter ω} {ss : List Stmt}
    {m : Moment ω} (h : Session output calls s) (hm : Interpreter.Visits ss s m) {body : List Stmt}
    (hfits : Stmt.AllFit body) (hb : ∀ st ∈ body, st.BindsNothing) :
    ∃ (o : Outcome) (t u : Interpreter ω),
      (Stmt.block body).execute m.scope m.interpreter = ended o.result t ∧
      Stmt.executeAll m.scope body m.interpreter = ended o.result u ∧
      t.output = u.output ∧ t.environment = u.environment := by
  obtain ⟨⟨σ, hrep⟩, -⟩ := hm.represents h.represents
  obtain ⟨o, σ', hex⟩ := hfits.exists_executesAll hrep
  obtain ⟨u, hall, hu⟩ := hex.run hrep
  obtain ⟨t, hblock, ht⟩ := (hex.block hb).run hrep
  exact ⟨o, t, u, hblock, hall, ht.sink.trans hu.sink.symm, ht.frames.unique hu.frames⟩

/-- `{ var a; } if (a) a = nil; print a; print -a;` -/
def assigningStatements : List Stmt :=
  let a : Token := ⟨.identifier, "a", none, 1⟩
  [.block [.declare a none],
   .ifThen (.var a) (.expression (.assign a (.literal .nil))),
   .print (.var a),
   .print (.unary ⟨.minus, "-", none, 1⟩ (.var a))]

/-- With braces or without, the statements assign to the global variable, write its value and fail
in the same way. The declaration in a block of its own is not in the way. -/
theorem block_eq_assigningStatements :
    Session Sink.unbounded [(outerDeclaration, .done)] outerDeclared ∧
      Interpreter.Visits [] outerDeclared ⟨.top, Environment.global, outerDeclared⟩ ∧
      Stmt.AllFit assigningStatements ∧ (∀ st ∈ assigningStatements, st.BindsNothing) ∧
      ∃ (o : Outcome) (t u : Interpreter Sink),
        (Stmt.block assigningStatements).execute Environment.global outerDeclared =
          ended o.result t ∧
        Stmt.executeAll Environment.global assigningStatements outerDeclared = ended o.result u ∧
        t.output = u.output ∧ t.environment = u.environment := by
  have hsession : Session Sink.unbounded [(outerDeclaration, .done)] outerDeclared :=
    .call .start rfl
  have hvisits : Interpreter.Visits [] outerDeclared ⟨.top, Environment.global, outerDeclared⟩ :=
    .inside .nil
  have hfits : Stmt.AllFit assigningStatements := by
    simp [assigningStatements, Stmt.AllFit, Stmt.Fits, Expr.Fits, Token.Kind.isUnary]
  have hb : ∀ st ∈ assigningStatements, st.BindsNothing := by
    simp [assigningStatements, Stmt.BindsNothing]
  exact ⟨hsession, hvisits, hfits, hb, block_eq_of_moment hsession hvisits hfits hb⟩

end Interpreter

end Lox
