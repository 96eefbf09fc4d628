import Mathlib.Tactic
import Lox.Proofs.Parse.Tree
import Lox.Semantics

set_option autoImplicit false

/-! # The names that a run binds

Evaluation binds no new names: it only gives other values to the names that are bound already
(`Semantics.Evaluates.sameNames`). A statement binds new names in the first map only, namely the
one that it declares, if it is done, and no name otherwise (`Semantics.Executes.gains`). What a
block declares is gone with the map of the block.
-/

namespace Lox.Semantics

namespace Frames

/-! ## Bound names -/

/-- The same names are bound, map by map. -/
def SameNames : Frames → Frames → Prop :=
  List.Forall₂ fun m m' => ∀ x, x ∈ m' ↔ x ∈ m

/-- The names `names` are bound in the first map as well, and no others. -/
inductive Gains (names : List String) : Frames → Frames → Prop
  | mk {m m' : Std.ExtTreeMap String Value} {ms ms' : Frames}
      (h : ∀ x, x ∈ m' ↔ x ∈ m ∨ x ∈ names) (hs : SameNames ms ms') :
      Gains names (m :: ms) (m' :: ms')

theorem SameNames.refl (ms : Frames) : SameNames ms ms :=
  List.forall₂_same.mpr fun _ _ _ => Iff.rfl

theorem SameNames.trans {ms ms' ms'' : Frames} (h : SameNames ms ms') (h' : SameNames ms' ms'') :
    SameNames ms ms'' := by
  induction h generalizing ms'' with
  | nil =>
      cases h'
      exact .nil
  | cons hm _ ih =>
      cases h' with
      | cons hm' hs' =>
          have hboth := fun x => (hm' x).trans (hm x)
          exact .cons hboth (ih hs')

/-- To bind the same names is to gain none. -/
theorem SameNames.gains {ms ms' : Frames} (h : SameNames ms ms') (hne : ms ≠ []) :
    Gains [] ms ms' := by
  cases h with
  | nil => exact absurd rfl hne
  | cons hm hs => exact .mk (fun x => by simp [hm x]) hs

namespace Gains

variable {names names' : List String} {ms ms' ms'' : Frames}

theorem ne_nil (h : Gains names ms ms') : ms' ≠ [] := by
  cases h
  exact List.cons_ne_nil _ _

theorem trans (h : Gains names ms ms') (h' : Gains names' ms' ms'') :
    Gains (names ++ names') ms ms'' := by
  cases h with
  | mk hm hs =>
      cases h' with
      | mk hm' hs' =>
          refine .mk (fun x => ?_) (hs.trans hs')
          rw [hm' x, hm x, List.mem_append, or_assoc]

end Gains

theorem define_gains (name : String) (value : Value) {ms : Frames} (hne : ms ≠ []) :
    Gains [name] ms (ms.define name value) := by
  cases ms with
  | nil => exact absurd rfl hne
  | cons m ms =>
      refine .mk (fun x => ?_) (SameNames.refl ms)
      rw [Std.ExtTreeMap.mem_insert, Std.LawfulEqCmp.compare_eq_iff_eq, List.mem_singleton, or_comm,
        eq_comm]

/-- Assigning binds a name anew that is bound already. -/
theorem sameNames_of_assign? {name : String} {value : Value} {ms ms' : Frames}
    (h : ms.assign? name value = some ms') : SameNames ms ms' := by
  induction ms generalizing ms' with
  | nil => cases h
  | cons m ms ih =>
      rw [assign?] at h
      by_cases hm : name ∈ m
      · rw [if_pos hm] at h
        cases h
        refine .cons (fun x => ?_) (SameNames.refl ms)
        rw [Std.ExtTreeMap.mem_insert, Std.LawfulEqCmp.compare_eq_iff_eq]
        constructor
        · rintro (rfl | hx)
          · exact hm
          · exact hx
        · exact .inr
      · rw [if_neg hm] at h
        obtain ⟨ms₁, hassign, rfl⟩ := Option.map_eq_some_iff.mp h
        exact .cons (fun _ => Iff.rfl) (ih hassign)

end Frames

open Frames (SameNames Gains)

/-! ## Expressions -/

/-- An expression binds no new name. -/
theorem Evaluates.sameNames {e : Expr} {ms ms' : Frames} {r : Except RuntimeError Value}
    (h : Evaluates e ms r ms') : SameNames ms ms' := by
  induction h with
  | literal | var | varUnbound => exact .refl _
  | grouping _ ih | unary _ _ ih | unaryFails _ ih | binaryLeftFails _ ih | logicalDecided _ _ ih
  | logicalFails _ ih | assignUnbound _ _ ih | assignFails _ ih => exact ih
  | binary _ _ _ iha ihb | binaryRightFails _ _ iha ihb | logicalOpen _ _ _ iha ihb =>
      exact iha.trans ihb
  | assign _ ha ih => exact ih.trans (Frames.sameNames_of_assign? ha)

/-! ## Statements -/

/-- The names that a statement has declared when it is over. -/
def Outcome.gained (o : Outcome) (st : Stmt) : List String :=
  if o = done then st.declared?.toList else []

theorem Outcome.gained_eq_nil {st : Stmt} (h : st.declared? = none) (o : Outcome) :
    o.gained st = [] := by
  rw [gained, h]
  split
  · rfl
  · rfl

variable {ω : Type} [Writer ω]

/-- The branch of a conditional declares nothing, and so the conditional gains nothing. -/
theorem gains_conditional {ms ms' ms'' : Frames} {st branch : Stmt} {o : Outcome}
    {names : List String} (hst : st.declared? = none)
    (hbranch : st.WellPlaced → branch.declared? = none ∧ branch.WellPlaced)
    (hc : SameNames ms ms') (hne : ms ≠ []) (hs : Gains names ms' ms'')
    (hnames : branch.WellPlaced → names = o.gained branch) :
    Gains names ms ms'' ∧ (st.WellPlaced → names = o.gained st) := by
  constructor
  · exact (hc.gains hne).trans hs
  · intro hplaced
    obtain ⟨hdeclared, hplaced⟩ := hbranch hplaced
    rw [hnames hplaced, Outcome.gained_eq_nil hdeclared, Outcome.gained_eq_nil hst]

mutual

/-- A statement binds new names in the first map only: if no branch in it is a declaration, then
what it declares itself. -/
theorem Executes.gains {st : Stmt} {σ σ' : State ω} {o : Outcome} (h : Executes st σ o σ')
    (hne : σ.frames ≠ []) :
    ∃ names, Gains names σ.frames σ'.frames ∧ (st.WellPlaced → names = o.gained st) := by
  cases h with
  | expression h | expressionFails h | printFails h | declareFails h | conditionFails h
  | choiceFails h | print h | noBranch h =>
      exact ⟨[], h.sameNames.gains hne, fun _ => by simp [Outcome.gained, Stmt.declared?]⟩
  | declare => exact ⟨_, Frames.define_gains _ _ hne, fun _ => rfl⟩
  | @declareValue name _ v _ _ _ h =>
      have hvalue := h.sameNames.gains hne
      exact ⟨_, hvalue.trans (Frames.define_gains name.lexeme v hvalue.ne_nil), fun _ => rfl⟩
  | block h =>
      -- whatever the block has bound is in the map that goes away
      obtain ⟨names, hgains⟩ := h.gains (List.cons_ne_nil _ _)
      cases hgains with
      | mk _ hs => exact ⟨[], hs.gains hne, fun _ => (Outcome.gained_eq_nil rfl o).symm⟩
  | thenBranch hc _ h =>
      obtain ⟨names, hgains, hnames⟩ := h.gains (hc.sameNames.gains hne).ne_nil
      exact ⟨names, gains_conditional rfl id hc.sameNames hne hgains hnames⟩
  | firstBranch hc _ h =>
      obtain ⟨names, hgains, hnames⟩ := h.gains (hc.sameNames.gains hne).ne_nil
      exact ⟨names, gains_conditional rfl And.left hc.sameNames hne hgains hnames⟩
  | secondBranch hc _ h =>
      obtain ⟨names, hgains, hnames⟩ := h.gains (hc.sameNames.gains hne).ne_nil
      exact ⟨names, gains_conditional rfl And.right hc.sameNames hne hgains hnames⟩

/-- Statements bind new names in the first map only. -/
theorem ExecutesAll.gains {ss : List Stmt} {σ σ' : State ω} {o : Outcome}
    (h : ExecutesAll ss σ o σ') (hne : σ.frames ≠ []) :
    ∃ names, Gains names σ.frames σ'.frames := by
  cases h with
  | nil => exact ⟨[], (SameNames.refl _).gains hne⟩
  | cons h hs =>
      obtain ⟨names, hgains, -⟩ := h.gains hne
      obtain ⟨names', hgains'⟩ := hs.gains hgains.ne_nil
      exact ⟨names ++ names', hgains.trans hgains'⟩
  | fails h =>
      obtain ⟨names, hgains, -⟩ := h.gains hne
      exact ⟨names, hgains⟩

end

end Lox.Semantics
