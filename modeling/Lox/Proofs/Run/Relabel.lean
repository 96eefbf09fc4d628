import Mathlib.Tactic
import Lox.Proofs.Parse.Relabel
import Lox.Semantics

set_option autoImplicit false

/-! # Other tokens and names in the same tree

What a tree means depends on the kinds of its operators and on which of its names are the same. With
other tokens of these kinds in their places, it does the same on variables that are related to the
ones before, if the relation is kept by all that is done to variables (`Frames.Simulation`,
`Semantics.ExecutesAll.simulated`). A runtime error then blames the token that is now in the place
of the blamed one. In particular, the variables may be renamed in the tree and in the state by an
injective map (`Semantics.ExecutesAll.renamed`). If no variable is renamed, the state is the same as
well (`Semantics.ExecutesAll.mapTokens`). Lists of statements one after the other mean what they
mean in turn (`Semantics.ExecutesAll.append`).
-/

namespace Lox

/-! ## Errors -/

/-- The error with another token blamed. -/
def RuntimeError.mapToken (f : Token → Token) (e : RuntimeError) : RuntimeError :=
  ⟨f e.token, e.cause⟩

/-- The cause with the variable renamed. -/
def RuntimeError.Cause.rename (ρ : String → String) : Cause → Cause
  | undefinedVariable name => undefinedVariable (ρ name)
  | cause => cause

/-- The error with another token blamed and the variable renamed. -/
def RuntimeError.rename (f : Token → Token) (ρ : String → String) (e : RuntimeError) :
    RuntimeError :=
  ⟨f e.token, e.cause.rename ρ⟩

theorem RuntimeError.rename_id (f : Token → Token) (e : RuntimeError) :
    e.rename f id = e.mapToken f := by
  obtain ⟨t, cause⟩ := e
  cases cause <;> rfl

/-! ## Statements that bind nothing -/

/-- The statement is not a declaration, and no branch that it may go on to is one. What is declared
in a block counts for nothing. -/
def Stmt.BindsNothing : Stmt → Prop
  | declare _ _ => False
  | ifThen _ thenBranch => thenBranch.BindsNothing
  | ifElse _ thenBranch elseBranch => thenBranch.BindsNothing ∧ elseBranch.BindsNothing
  | expression _ | print _ | block _ => True

namespace Semantics

/-- The outcome with another token blamed. -/
def Outcome.mapToken (f : Token → Token) : Outcome → Outcome
  | done => done
  | runtime e => runtime (e.mapToken f)
  | output e => output e

/-- The outcome with another token blamed and the variable renamed. -/
def Outcome.rename (f : Token → Token) (ρ : String → String) : Outcome → Outcome
  | done => done
  | runtime e => runtime (e.rename f ρ)
  | output e => output e

theorem Outcome.rename_id (f : Token → Token) (o : Outcome) : o.rename f id = o.mapToken f := by
  cases o with
  | done | output => rfl
  | runtime e => rw [rename, e.rename_id, mapToken]

theorem Outcome.rename_ofWriting (f : Token → Token) (ρ : String → String)
    (r : Except WriteError Unit) : (ofWriting r).rename f ρ = ofWriting r := by
  cases r <;> rfl

/-! ## Variables under other names -/

/-- Under the renamed names, the second map has the values that the first one has. -/
def Corresponds (ρ : String → String) (m m' : Std.ExtTreeMap String Value) : Prop :=
  ∀ y v, m'[y]? = some v ↔ ∃ x, ρ x = y ∧ m[x]? = some v

namespace Corresponds

variable {ρ : String → String} {m m' : Std.ExtTreeMap String Value}

theorem empty (ρ : String → String) : Corresponds ρ ∅ ∅ := by
  intro y v
  simp

theorem self (m : Std.ExtTreeMap String Value) : Corresponds id m m := by
  intro y v
  simp

/-- Without renaming, maps that correspond are the same. -/
theorem eq_of_id (h : Corresponds id m m') : m' = m := by
  refine Std.ExtTreeMap.ext_getElem? fun x => Option.ext fun v => ?_
  rw [h x v]
  simp

variable (hρ : Function.Injective ρ)

include hρ

theorem getElem?_eq (h : Corresponds ρ m m') (x : String) : m'[ρ x]? = m[x]? := by
  refine Option.ext fun v => ?_
  rw [h (ρ x) v]
  constructor
  · rintro ⟨x', hx, hv⟩
    rwa [hρ hx] at hv
  · exact fun hv => ⟨x, rfl, hv⟩

theorem mem_iff (h : Corresponds ρ m m') (x : String) : ρ x ∈ m' ↔ x ∈ m := by
  rw [Std.ExtTreeMap.mem_iff_isSome_getElem?, h.getElem?_eq hρ,
    Std.ExtTreeMap.mem_iff_isSome_getElem?]

theorem insert (h : Corresponds ρ m m') (x : String) (v : Value) :
    Corresponds ρ (m.insert x v) (m'.insert (ρ x) v) := by
  intro y w
  rw [Std.ExtTreeMap.getElem?_insert]
  by_cases hy : ρ x = y
  · subst hy
    rw [if_pos (Std.LawfulEqCmp.compare_eq_iff_eq.mpr rfl)]
    constructor
    · intro hw
      exact ⟨x, rfl, by simpa using hw⟩
    · rintro ⟨x', hx, hw⟩
      simpa [hρ hx] using hw
  · rw [if_neg (mt Std.LawfulEqCmp.compare_eq_iff_eq.mp hy), h y w]
    refine exists_congr fun x' => and_congr_right fun hx => ?_
    have hne : x ≠ x' := by
      rintro rfl
      exact hy hx
    rw [Std.ExtTreeMap.getElem?_insert, if_neg (mt Std.LawfulEqCmp.compare_eq_iff_eq.mp hne)]

end Corresponds

namespace Frames

/-- `R n` relates variables whose first `n` maps are in the same places. Renamed variables that are
related have the same values, and the relation goes on when they are assigned to or defined, and
when a block begins or ends. A definition goes into a map that is in the same place. -/
structure Simulation (ρ : String → String) (R : Nat → Frames → Frames → Prop) : Prop where
  get?_eq : ∀ {n : Nat} {ms ns : Frames}, R n ms ns → ∀ x, ns.get? (ρ x) = ms.get? x
  assign?_eq_some : ∀ {n : Nat} {ms ns : Frames}, R n ms ns → ∀ {x : String} {v : Value}
    {ms' : Frames}, ms.assign? x v = some ms' →
    ∃ ns', ns.assign? (ρ x) v = some ns' ∧ R n ms' ns'
  assign?_eq_none : ∀ {n : Nat} {ms ns : Frames}, R n ms ns → ∀ {x : String} {v : Value},
    ms.assign? x v = none → ns.assign? (ρ x) v = none
  define : ∀ {n : Nat} {ms ns : Frames}, R (n + 1) ms ns → ∀ x v,
    R (n + 1) (ms.define x v) (ns.define (ρ x) v)
  enter : ∀ {n : Nat} {ms ns : Frames}, R n ms ns → R (n + 1) (∅ :: ms) (∅ :: ns)
  exit : ∀ {n : Nat} {m : Std.ExtTreeMap String Value} {ms ns : Frames}, R (n + 1) (m :: ms) ns →
    ∃ m' ns', ns = m' :: ns' ∧ R n ms ns'

/-- The maps correspond, one by one. -/
def Correspond (ρ : String → String) : Frames → Frames → Prop := List.Forall₂ (Corresponds ρ)

variable {ρ : String → String} {ms ns : Frames}

theorem Correspond.eq_of_id (h : Correspond id ms ns) : ns = ms := by
  induction h with
  | nil => rfl
  | cons hm _ ih => rw [hm.eq_of_id, ih]

theorem correspond_id (ms : Frames) : Correspond id ms ms :=
  List.forall₂_same.mpr fun m _ => .self m

variable (hρ : Function.Injective ρ)

include hρ

theorem Correspond.get?_eq (h : Correspond ρ ms ns) (x : String) : ns.get? (ρ x) = ms.get? x := by
  induction h with
  | nil => rfl
  | cons hm _ ih => rw [get?, get?, hm.getElem?_eq hρ, ih]

theorem Correspond.define (h : Correspond ρ ms ns) (x : String) (v : Value) :
    Correspond ρ (ms.define x v) (ns.define (ρ x) v) := by
  cases h with
  | nil => exact .nil
  | cons hm hs => exact .cons (hm.insert hρ x v) hs

/-- Assigning to a renamed variable does the same. -/
theorem Correspond.assign?_eq_some (h : Correspond ρ ms ns) {x : String} {v : Value} {ms' : Frames}
    (ha : ms.assign? x v = some ms') :
    ∃ ns', ns.assign? (ρ x) v = some ns' ∧ Correspond ρ ms' ns' := by
  induction h generalizing ms' with
  | nil => cases ha
  | @cons m m' ms ns hm hs ih =>
      rw [assign?] at ha
      rw [assign?]
      by_cases hx : x ∈ m
      · rw [if_pos hx] at ha
        cases ha
        exact ⟨_, if_pos ((hm.mem_iff hρ x).mpr hx), .cons (hm.insert hρ x v) hs⟩
      · rw [if_neg hx] at ha
        obtain ⟨ms₁, hassign, rfl⟩ := Option.map_eq_some_iff.mp ha
        obtain ⟨ns₁, hassign', hs'⟩ := ih hassign
        rw [if_neg (mt (hm.mem_iff hρ x).mp hx), hassign']
        exact ⟨_, rfl, .cons hm hs'⟩

/-- Assigning to a renamed variable fails as well. -/
theorem Correspond.assign?_eq_none (h : Correspond ρ ms ns) {x : String} {v : Value}
    (ha : ms.assign? x v = none) : ns.assign? (ρ x) v = none := by
  induction h with
  | nil => rfl
  | @cons m m' ms ns hm _ ih =>
      rw [assign?] at ha
      by_cases hx : x ∈ m
      · rw [if_pos hx] at ha
        cases ha
      · rw [if_neg hx, Option.map_eq_none_iff] at ha
        rw [assign?, if_neg (mt (hm.mem_iff hρ x).mp hx), ih ha]
        rfl

/-- Renaming the variables keeps all maps in their places. -/
theorem simulation_correspond : Simulation ρ fun _ => Correspond ρ where
  get?_eq h := h.get?_eq hρ
  assign?_eq_some h _ _ _ := h.assign?_eq_some hρ
  assign?_eq_none h _ _ := h.assign?_eq_none hρ
  define h := h.define hρ
  enter h := .cons (.empty ρ) h
  exit h := by
    cases h with
    | cons _ hs => exact ⟨_, _, rfl, hs⟩

end Frames

/-! ## Expressions -/

open Frames (Correspond)

section Renamed

variable {f : Token → Token} {ρ : String → String}

/-- The name has the token of the renamed variable in its place. -/
def Renames (f : Token → Token) (ρ : String → String) (name : Token) : Prop :=
  (f name).lexeme = ρ name.lexeme

theorem Renames.unbound {name : Token} (h : Renames f ρ name) :
    (unbound name).rename f ρ = Semantics.unbound (f name) := by
  rw [Semantics.unbound, Semantics.unbound, h]
  rfl

theorem Numeric.rename_cause {k : Token.Kind} {g : Float → Float → Value}
    {cause : RuntimeError.Cause} (h : Numeric k g cause) : cause.rename ρ = cause := by
  cases h <;> rfl

section Operators

variable (hk : ∀ t, (f t).kind = t.kind)

include hk

theorem Unary.renamed {operator : Token} {v : Value} {r : Except RuntimeError Value}
    (h : Unary operator v r) : Unary (f operator) v (r.mapError (.rename f ρ)) := by
  cases h with
  | negate h => exact .negate ((hk _).trans h)
  | negateOther h hv => exact .negateOther ((hk _).trans h) hv
  | notFalsy h hv => exact .notFalsy ((hk _).trans h) hv
  | notTruthy h hv => exact .notTruthy ((hk _).trans h) hv

theorem Binary.renamed {operator : Token} {v w : Value} {r : Except RuntimeError Value}
    (h : Binary operator v w r) : Binary (f operator) v w (r.mapError (.rename f ρ)) := by
  cases h with
  | add h => exact .add ((hk _).trans h)
  | join h => exact .join ((hk _).trans h)
  | addOther h hn hs => exact .addOther ((hk _).trans h) hn hs
  | numbers h =>
      rw [← hk] at h
      exact .numbers h
  | others h hn =>
      rw [Except.mapError, RuntimeError.rename, h.rename_cause]
      rw [← hk] at h
      exact .others h hn
  | equal h hvw =>
      rw [← hk] at h
      exact .equal h hvw
  | unequal h hvw =>
      rw [← hk] at h
      exact .unequal h hvw

theorem Decides.renamed {operator : Token} {v : Value} {decided : Bool}
    (h : Decides operator v decided) : Decides (f operator) v decided := by
  cases h with
  | andFalsy h hv => exact .andFalsy ((hk _).trans h) hv
  | andTruthy h hv => exact .andTruthy ((hk _).trans h) hv
  | orFalsy h hv => exact .orFalsy ((hk _).trans h) hv
  | orTruthy h hv => exact .orTruthy ((hk _).trans h) hv

end Operators

variable {R : Nat → Frames → Frames → Prop}

/-- An expression with other tokens of the same kinds has the same value on related variables. -/
theorem Evaluates.simulated (hk : ∀ t, (f t).kind = t.kind) (hR : Frames.Simulation ρ R) {e : Expr}
    {ms ms' ns : Frames} {r : Except RuntimeError Value} {n : Nat} (h : Evaluates e ms r ms')
    (hn : ∀ name ∈ e.names, Renames f ρ name) (hms : R n ms ns) :
    ∃ ns', Evaluates (e.mapTokens f) ns (r.mapError (.rename f ρ)) ns' ∧ R n ms' ns' := by
  -- along the evaluation: the maps that a part leaves are related, and the next part starts in them
  induction h generalizing ns with
  | literal => exact ⟨ns, .literal, hms⟩
  | grouping _ ih =>
      obtain ⟨ns', h, hms'⟩ := ih hn hms
      exact ⟨ns', .grouping h, hms'⟩
  | unary _ hr ih =>
      obtain ⟨ns', h, hms'⟩ := ih hn hms
      exact ⟨ns', .unary h (hr.renamed hk), hms'⟩
  | unaryFails _ ih =>
      obtain ⟨ns', h, hms'⟩ := ih hn hms
      exact ⟨ns', .unaryFails h, hms'⟩
  | binary _ _ hr iha ihb =>
      obtain ⟨hna, hnb⟩ := List.forall_mem_append.mp hn
      obtain ⟨ns', ha, hms'⟩ := iha hna hms
      obtain ⟨ns'', hb, hms''⟩ := ihb hnb hms'
      exact ⟨ns'', .binary ha hb (hr.renamed hk), hms''⟩
  | binaryLeftFails _ ih =>
      obtain ⟨ns', h, hms'⟩ := ih (List.forall_mem_append.mp hn).1 hms
      exact ⟨ns', .binaryLeftFails h, hms'⟩
  | binaryRightFails _ _ iha ihb =>
      obtain ⟨hna, hnb⟩ := List.forall_mem_append.mp hn
      obtain ⟨ns', ha, hms'⟩ := iha hna hms
      obtain ⟨ns'', hb, hms''⟩ := ihb hnb hms'
      exact ⟨ns'', .binaryRightFails ha hb, hms''⟩
  | logicalDecided _ hd ih =>
      obtain ⟨ns', h, hms'⟩ := ih (List.forall_mem_append.mp hn).1 hms
      exact ⟨ns', .logicalDecided h (hd.renamed hk), hms'⟩
  | logicalOpen _ hd _ iha ihb =>
      obtain ⟨hna, hnb⟩ := List.forall_mem_append.mp hn
      obtain ⟨ns', ha, hms'⟩ := iha hna hms
      obtain ⟨ns'', hb, hms''⟩ := ihb hnb hms'
      exact ⟨ns'', .logicalOpen ha (hd.renamed hk) hb, hms''⟩
  | logicalFails _ ih =>
      obtain ⟨ns', h, hms'⟩ := ih (List.forall_mem_append.mp hn).1 hms
      exact ⟨ns', .logicalFails h, hms'⟩
  | @var name _ _ hv =>
      have hname : Renames f ρ name := hn name (List.mem_singleton_self _)
      rw [← hR.get?_eq hms, ← hname] at hv
      exact ⟨ns, .var hv, hms⟩
  | @varUnbound name _ hv =>
      have hname : Renames f ρ name := hn name (List.mem_singleton_self _)
      rw [← hR.get?_eq hms, ← hname] at hv
      rw [Except.mapError, hname.unbound]
      exact ⟨ns, .varUnbound hv, hms⟩
  | assign _ ha ih =>
      obtain ⟨hname, hn⟩ := List.forall_mem_cons.mp hn
      obtain ⟨ns', h, hms'⟩ := ih hn hms
      obtain ⟨ns'', ha', hms''⟩ := hR.assign?_eq_some hms' ha
      rw [← hname] at ha'
      exact ⟨ns'', .assign h ha', hms''⟩
  | assignUnbound _ ha ih =>
      obtain ⟨hname, hn⟩ := List.forall_mem_cons.mp hn
      obtain ⟨ns', h, hms'⟩ := ih hn hms
      have ha' := hR.assign?_eq_none hms' ha
      rw [← hname] at ha'
      rw [Except.mapError, hname.unbound]
      exact ⟨ns', .assignUnbound h ha', hms'⟩
  | assignFails _ ih =>
      obtain ⟨-, hn⟩ := List.forall_mem_cons.mp hn
      obtain ⟨ns', h, hms'⟩ := ih hn hms
      exact ⟨ns', .assignFails h, hms'⟩

/-! ## Statements -/

variable {ω : Type} [Writer ω]

mutual

/-- A statement with other tokens of the same kinds does the same on related variables. It has to
bind nothing if the first map is not in the same place. -/
theorem Executes.simulated (hk : ∀ t, (f t).kind = t.kind) (hR : Frames.Simulation ρ R) {st : Stmt}
    {σ σ' : State ω} {o : Outcome} {ns : Frames} {n : Nat} (h : Executes st σ o σ')
    (hb : n = 0 → st.BindsNothing) (hn : ∀ name ∈ st.names, Renames f ρ name)
    (hms : R n σ.frames ns) :
    ∃ ns', Executes (st.mapTokens f) ⟨ns, σ.sink⟩ (o.rename f ρ) ⟨ns', σ'.sink⟩ ∧
      R n σ'.frames ns' := by
  cases h with
  | expression h =>
      obtain ⟨ns', h, hms'⟩ := h.simulated hk hR hn hms
      exact ⟨ns', .expression h, hms'⟩
  | expressionFails h =>
      obtain ⟨ns', h, hms'⟩ := h.simulated hk hR hn hms
      exact ⟨ns', .expressionFails h, hms'⟩
  | print h ht hp =>
      obtain ⟨ns', h, hms'⟩ := h.simulated hk hR hn hms
      rw [Outcome.rename_ofWriting]
      exact ⟨ns', .print h ht hp, hms'⟩
  | printFails h =>
      obtain ⟨ns', h, hms'⟩ := h.simulated hk hR hn hms
      exact ⟨ns', .printFails h, hms'⟩
  | @declare name =>
      obtain ⟨n, rfl⟩ := Nat.exists_eq_succ_of_ne_zero hb
      have hname : Renames f ρ name := hn name (List.mem_cons_self ..)
      have hms' := hR.define hms name.lexeme .nil
      rw [← hname] at hms'
      exact ⟨_, .declare, hms'⟩
  | @declareValue name _ v _ _ _ h =>
      obtain ⟨n, rfl⟩ := Nat.exists_eq_succ_of_ne_zero hb
      obtain ⟨hname, hn⟩ := List.forall_mem_cons.mp hn
      obtain ⟨ns', h, hms'⟩ := h.simulated hk hR hn hms
      have hms'' := hR.define hms' name.lexeme v
      rw [← hname] at hms''
      exact ⟨_, .declareValue h, hms''⟩
  | declareFails h =>
      obtain ⟨ns', h, hms'⟩ := h.simulated hk hR (List.forall_mem_cons.mp hn).2 hms
      exact ⟨ns', .declareFails h, hms'⟩
  | block h =>
      -- the block starts with an empty map on both sides, and its map is gone behind it
      obtain ⟨_, h, hms'⟩ := h.simulated hk hR (absurd · (Nat.succ_ne_zero n)) hn (hR.enter hms)
      obtain ⟨m', ns', rfl, hms''⟩ := hR.exit hms'
      exact ⟨ns', .block h, hms''⟩
  | thenBranch hc hv h =>
      obtain ⟨hnc, hns⟩ := List.forall_mem_append.mp hn
      obtain ⟨ns', hc, hms'⟩ := hc.simulated hk hR hnc hms
      obtain ⟨ns'', h, hms''⟩ := h.simulated hk hR hb hns hms'
      exact ⟨ns'', .thenBranch hc hv h, hms''⟩
  | noBranch hc hv =>
      obtain ⟨ns', hc, hms'⟩ := hc.simulated hk hR (List.forall_mem_append.mp hn).1 hms
      exact ⟨ns', .noBranch hc hv, hms'⟩
  | conditionFails hc =>
      obtain ⟨ns', hc, hms'⟩ := hc.simulated hk hR (List.forall_mem_append.mp hn).1 hms
      exact ⟨ns', .conditionFails hc, hms'⟩
  | firstBranch hc hv h =>
      obtain ⟨hnc, hn⟩ := List.forall_mem_append.mp hn
      obtain ⟨ns', hc, hms'⟩ := hc.simulated hk hR hnc hms
      obtain ⟨ns'', h, hms''⟩ :=
        h.simulated hk hR (fun h₀ => (hb h₀).1) (List.forall_mem_append.mp hn).1 hms'
      exact ⟨ns'', .firstBranch hc hv h, hms''⟩
  | secondBranch hc hv h =>
      obtain ⟨hnc, hn⟩ := List.forall_mem_append.mp hn
      obtain ⟨ns', hc, hms'⟩ := hc.simulated hk hR hnc hms
      obtain ⟨ns'', h, hms''⟩ :=
        h.simulated hk hR (fun h₀ => (hb h₀).2) (List.forall_mem_append.mp hn).2 hms'
      exact ⟨ns'', .secondBranch hc hv h, hms''⟩
  | choiceFails hc =>
      obtain ⟨ns', hc, hms'⟩ := hc.simulated hk hR (List.forall_mem_append.mp hn).1 hms
      exact ⟨ns', .choiceFails hc, hms'⟩

/-- Statements with other tokens of the same kinds do the same on related variables. -/
theorem ExecutesAll.simulated (hk : ∀ t, (f t).kind = t.kind) (hR : Frames.Simulation ρ R)
    {ss : List Stmt} {σ σ' : State ω} {o : Outcome} {ns : Frames} {n : Nat}
    (h : ExecutesAll ss σ o σ') (hb : n = 0 → ∀ st ∈ ss, st.BindsNothing)
    (hn : ∀ name ∈ Stmt.namesAll ss, Renames f ρ name) (hms : R n σ.frames ns) :
    ∃ ns', ExecutesAll (Stmt.mapTokensAll f ss) ⟨ns, σ.sink⟩ (o.rename f ρ) ⟨ns', σ'.sink⟩ ∧
      R n σ'.frames ns' := by
  cases h with
  | nil => exact ⟨ns, .nil, hms⟩
  | cons h hs =>
      obtain ⟨hns, hnss⟩ := List.forall_mem_append.mp hn
      obtain ⟨ns', h, hms'⟩ := h.simulated hk hR (fun h₀ => hb h₀ _ (List.mem_cons_self ..)) hns hms
      obtain ⟨ns'', hs, hms''⟩ :=
        hs.simulated hk hR (fun h₀ st hst => hb h₀ st (List.mem_cons_of_mem _ hst)) hnss hms'
      exact ⟨ns'', .cons h hs, hms''⟩
  | fails h ho =>
      obtain ⟨ns', h, hms'⟩ := h.simulated hk hR (fun h₀ => hb h₀ _ (List.mem_cons_self ..))
        (List.forall_mem_append.mp hn).1 hms
      refine ⟨ns', .fails h ?_, hms'⟩
      cases o with
      | done => exact absurd rfl ho
      | runtime | output => exact Outcome.noConfusion

end

/-- Statements with other tokens of the same kinds do the same if their variables are renamed. -/
theorem ExecutesAll.renamed (hk : ∀ t, (f t).kind = t.kind) (hρ : Function.Injective ρ)
    {ss : List Stmt} {σ σ' : State ω} {o : Outcome} {ns : Frames} (h : ExecutesAll ss σ o σ')
    (hn : ∀ name ∈ Stmt.namesAll ss, Renames f ρ name) (hms : Correspond ρ σ.frames ns) :
    ∃ ns', ExecutesAll (Stmt.mapTokensAll f ss) ⟨ns, σ.sink⟩ (o.rename f ρ) ⟨ns', σ'.sink⟩ ∧
      Correspond ρ σ'.frames ns' :=
  h.simulated hk (Frames.simulation_correspond hρ) (absurd · Nat.one_ne_zero) hn hms

end Renamed

/-- Statements with other tokens of the same kinds and lexemes do the same. -/
theorem ExecutesAll.mapTokens {ω : Type} [Writer ω] {f : Token → Token}
    (hk : ∀ t, (f t).kind = t.kind) (hlex : ∀ t, (f t).lexeme = t.lexeme) {ss : List Stmt}
    {σ σ' : State ω} {o : Outcome} (h : ExecutesAll ss σ o σ') :
    ExecutesAll (Stmt.mapTokensAll f ss) σ (o.mapToken f) σ' := by
  obtain ⟨ns, hrun, hns⟩ :=
    h.renamed hk Function.injective_id (fun name _ => hlex name) (Frames.correspond_id σ.frames)
  rw [hns.eq_of_id, Outcome.rename_id] at hrun
  exact hrun

/-! ## Blamed tokens -/

theorem Unary.token_eq {operator : Token} {v : Value} {f : RuntimeError}
    (h : Unary operator v (.error f)) : f.token = operator := by
  cases h
  rfl

theorem Binary.token_eq {operator : Token} {v w : Value} {f : RuntimeError}
    (h : Binary operator v w (.error f)) : f.token = operator := by
  cases h <;> rfl

/-- The token that is blamed for the fault of an expression is a name or operator in it. -/
theorem Evaluates.token_mem_stored {e : Expr} {ms ms' : Frames} {f : RuntimeError}
    (h : Evaluates e ms (.error f) ms') : f.token ∈ e.stored := by
  generalize hr : Except.error f = r at h
  induction h with
  | literal | logicalDecided | var | assign => cases hr
  | grouping _ ih => exact ih hr
  | unary _ hu _ =>
      rw [← hr] at hu
      simp [Expr.stored, hu.token_eq]
  | binary _ _ hb _ _ =>
      rw [← hr] at hb
      simp [Expr.stored, hb.token_eq]
  | unaryFails _ ih | assignFails _ ih => exact List.mem_cons_of_mem _ (ih hr)
  | binaryLeftFails _ ih | logicalFails _ ih => exact List.mem_append_left _ (ih hr)
  | binaryRightFails _ _ _ ih | logicalOpen _ _ _ _ ih =>
      exact List.mem_append_right _ (List.mem_cons_of_mem _ (ih hr))
  | varUnbound | assignUnbound =>
      cases hr
      exact List.mem_cons_self ..

/-- The token that the outcome blames, if it is a runtime error. -/
def Outcome.blamed : Outcome → List Token
  | runtime e => [e.token]
  | _ => []

/-- What matters of a map of tokens is what it makes of the blamed token. -/
theorem Outcome.rename_congr {f g : Token → Token} (ρ : String → String) {o : Outcome}
    (h : ∀ t ∈ o.blamed, f t = g t) : o.rename f ρ = o.rename g ρ := by
  cases o with
  | done | output => rfl
  | runtime e =>
      rw [rename, RuntimeError.rename, h _ (List.mem_singleton_self _)]
      rfl

theorem Outcome.blamed_ofWriting (r : Except WriteError Unit) : (ofWriting r).blamed = [] := by
  cases r <;> rfl

section Blamed

variable {ω : Type} [Writer ω] {o : Outcome} {t : Token}

mutual

/-- A statement blames names and operators in it. -/
theorem Executes.blamed_mem_stored {st : Stmt} {σ σ' : State ω} (h : Executes st σ o σ')
    (ht : t ∈ o.blamed) : t ∈ st.stored := by
  cases st with
  | expression e =>
      cases h with
      | expression => cases ht
      | expressionFails h => exact List.mem_singleton.mp ht ▸ h.token_mem_stored
  | print e =>
      cases h with
      | print => simp [Outcome.blamed_ofWriting] at ht
      | printFails h => exact List.mem_singleton.mp ht ▸ h.token_mem_stored
  | declare name initializer =>
      cases h with
      | declare | declareValue => cases ht
      | declareFails h =>
          exact List.mem_cons_of_mem _ (List.mem_singleton.mp ht ▸ h.token_mem_stored)
  | block body =>
      cases h with
      | block h => exact h.blamed_mem_storedAll ht
  | ifThen c st =>
      rw [Stmt.stored, List.mem_append]
      cases h with
      | thenBranch _ _ h => exact .inr (h.blamed_mem_stored ht)
      | noBranch => cases ht
      | conditionFails h => exact .inl (List.mem_singleton.mp ht ▸ h.token_mem_stored)
  | ifElse c st st' =>
      rw [Stmt.stored, List.mem_append, List.mem_append]
      cases h with
      | firstBranch _ _ h => exact .inr (.inl (h.blamed_mem_stored ht))
      | secondBranch _ _ h => exact .inr (.inr (h.blamed_mem_stored ht))
      | choiceFails h => exact .inl (List.mem_singleton.mp ht ▸ h.token_mem_stored)

/-- Statements blame names and operators in them. -/
theorem ExecutesAll.blamed_mem_storedAll {ss : List Stmt} {σ σ' : State ω}
    (h : ExecutesAll ss σ o σ') (ht : t ∈ o.blamed) : t ∈ Stmt.storedAll ss := by
  cases ss with
  | nil =>
      cases h
      cases ht
  | cons st ss =>
      rw [Stmt.storedAll, List.mem_append]
      cases h with
      | cons _ hs => exact .inr (hs.blamed_mem_storedAll ht)
      | fails h _ => exact .inl (h.blamed_mem_stored ht)

end

end Blamed

/-! ## Statements in a row -/

/-- Statements that are done are followed by what the next ones do. -/
theorem ExecutesAll.append {ω : Type} [Writer ω] {ss ss' : List Stmt} {σ σ' σ'' : State ω}
    {o : Outcome} (h : ExecutesAll ss σ .done σ') (h' : ExecutesAll ss' σ' o σ'') :
    ExecutesAll (ss ++ ss') σ o σ'' := by
  induction ss generalizing σ with
  | nil =>
      cases h
      exact h'
  | cons st ss ih =>
      cases h with
      | cons hst hss => exact .cons hst (ih hss)
      | fails _ ho => exact absurd rfl ho

end Semantics

end Lox
