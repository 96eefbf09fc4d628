import Mathlib.Tactic
import Lox.Environment
import Lox.Semantics

set_option autoImplicit false

/-! # Environments as stacks of maps

While a program runs, each scope is enclosed in the one that was opened just before it. The
bindings of the scopes, the last one first, are then a chain of maps (`Environment.Represents`), and
what the environment does in its last scope is what the chain does: reading, assigning, defining,
opening and closing a scope.
-/

namespace Lox

namespace Environment

open Semantics (Frames)

/-! ## The maps of the scopes -/

/-- The bindings in a scope, none if it is not there. -/
def bindingsAt (env : Environment) (i : Nat) : Std.ExtTreeMap String Value :=
  env.scopes[i]?.elim ∅ (·.bindings)

/-- The bindings of the first `n` scopes, the last one first. -/
def framesTo (env : Environment) : Nat → Frames
  | 0 => []
  | n + 1 => env.bindingsAt n :: env.framesTo n

/-- The chain of the first `n` scopes depends on their bindings only. -/
theorem framesTo_congr {env env' : Environment} {n : Nat}
    (h : ∀ i < n, env.bindingsAt i = env'.bindingsAt i) : env.framesTo n = env'.framesTo n := by
  induction n with
  | zero => rfl
  | succ n ih =>
      have hrest : env.framesTo n = env'.framesTo n := ih fun i hi => h i (by omega)
      rw [framesTo, framesTo, h n (by omega), hrest]

theorem slot?_eq (env : Environment) (i : Nat) (name : String) :
    env.slot? i name = (env.bindingsAt i)[name]? := by
  rw [slot?, bindingsAt]
  cases env.scopes[i]? with
  | none => simp
  | some s => rfl

/-- Each scope but the first is enclosed in the one before it. -/
def IsStack (env : Environment) : Prop :=
  ∀ i (h : i < env.scopes.size), env.scopes[i].enclosing = if i = 0 then none else some (i - 1)

/-- The chain of maps `ms` is the bindings of the scopes, which are a stack up to `scope`. -/
structure Represents (env : Environment) (scope : Nat) (ms : Frames) : Prop where
  stack : env.IsStack
  size : env.scopes.size = scope + 1
  frames : env.framesTo (scope + 1) = ms

theorem represents_initial : Represents .initial global [∅] where
  stack i h := by
    obtain rfl : i = 0 := Nat.lt_one_iff.mp h
    rfl
  size := rfl
  frames := rfl

/-! ## Chains -/

theorem IsStack.chain_zero {env : Environment} (h : env.IsStack) : env.chain 0 = [0] := by
  rw [chain, dif_pos env.nonempty]
  have he := h 0 env.nonempty
  split
  · rfl
  · next hs => simp [he] at hs

theorem IsStack.chain_succ {env : Environment} (h : env.IsStack) {i : Nat}
    (hi : i + 1 < env.scopes.size) : env.chain (i + 1) = (i + 1) :: env.chain i := by
  rw [chain, dif_pos hi]
  have he := h (i + 1) hi
  split
  · next hs => simp [he] at hs
  · next outer hs =>
    obtain rfl : i = outer := by simpa [he] using hs
    rfl

/-- Reading a name goes through the maps. -/
theorem IsStack.findSome?_chain {env : Environment} (h : env.IsStack) (name : String) {i : Nat}
    (hi : i < env.scopes.size) :
    (env.chain i).findSome? (fun s => env.slot? s name) = (env.framesTo (i + 1)).get? name := by
  induction i with
  | zero =>
      rw [h.chain_zero]
      simp [framesTo, Frames.get?, slot?_eq]
  | succ i ih =>
      show _ = ((env.bindingsAt (i + 1))[name]?).or ((env.framesTo (i + 1)).get? name)
      rw [h.chain_succ hi, List.findSome?_cons, ih (by omega), slot?_eq]
      cases (env.bindingsAt (i + 1))[name]? <;> rfl

theorem resolve_cons {env : Environment} {i : Nat} {is : List Nat} (h : env.chain i = i :: is)
    (name : String) :
    env.resolve i name =
      if name ∈ env.bindingsAt i then some i else is.find? fun s => (env.slot? s name).isSome := by
  rw [resolve, h, List.find?_cons, slot?_eq]
  by_cases hm : name ∈ env.bindingsAt i <;> simp [hm]

/-! ## Defining and assigning -/

theorem bindingsAt_define (env : Environment) (scope : Nat) (name : String) (value : Value)
    {i : Nat} (hi : i < env.scopes.size) :
    (env.define scope name value).bindingsAt i =
      if scope = i then (env.bindingsAt i).insert name value else env.bindingsAt i := by
  simp only [bindingsAt, define, Array.getElem?_modify, Array.getElem?_eq_getElem hi]
  split <;> rfl

/-- A definition changes no scope below. -/
theorem framesTo_define (env : Environment) {scope n : Nat} (h : n ≤ scope) (name : String)
    (value : Value) (hn : n ≤ env.scopes.size) :
    (env.define scope name value).framesTo n = env.framesTo n := by
  apply framesTo_congr
  intro i hi
  rw [bindingsAt_define env scope name value (by omega), if_neg (by omega)]

theorem IsStack.define {env : Environment} (h : env.IsStack) (scope : Nat) (name : String)
    (value : Value) : (env.define scope name value).IsStack := by
  intro i hi
  have hi' : i < env.scopes.size := by simpa [Environment.define] using hi
  have he := h i hi'
  simp only [Environment.define, Array.getElem_modify]
  split
  · exact he
  · exact he

/-- A name stands for a variable of a scope on the chain. -/
theorem IsStack.le_of_resolve {env : Environment} (h : env.IsStack) {name : String} {i s : Nat}
    (hi : i < env.scopes.size) (hs : env.resolve i name = some s) : s ≤ i := by
  induction i with
  | zero =>
      rw [resolve, h.chain_zero] at hs
      have hmem : s ∈ [0] := List.mem_of_find?_eq_some hs
      simpa using hmem
  | succ i ih =>
      rw [resolve_cons (h.chain_succ hi)] at hs
      split at hs
      · exact (Option.some.inj hs).ge
      · have hle : s ≤ i := ih (by omega) hs
        omega

/-- Assigning to a name goes through the maps: it binds the name anew in the first that binds it. -/
theorem IsStack.assign?_framesTo {env : Environment} (h : env.IsStack) (name : String)
    (value : Value) {i : Nat} (hi : i < env.scopes.size) :
    (env.framesTo (i + 1)).assign? name value =
      (env.resolve i name).map fun s => (env.define s name value).framesTo (i + 1) := by
  -- in the scope that binds the name, the definition changes the first map of the chain only
  have hhere : ∀ n < env.scopes.size, (env.define n name value).framesTo (n + 1) =
      (env.bindingsAt n).insert name value :: env.framesTo n := by
    intro n hn
    show _ :: _ = _
    rw [bindingsAt_define env n name value hn, if_pos rfl,
      framesTo_define env (Nat.le_refl n) name value (by omega)]
  induction i with
  | zero =>
      rw [resolve_cons h.chain_zero]
      show (if name ∈ env.bindingsAt 0 then some [_] else none) = _
      by_cases hm : name ∈ env.bindingsAt 0
      · rw [if_pos hm, if_pos hm, Option.map_some, hhere 0 hi]
        rfl
      · rw [if_neg hm, if_neg hm]
        rfl
  | succ i ih =>
      rw [resolve_cons (h.chain_succ hi)]
      show (if name ∈ env.bindingsAt (i + 1) then some (_ :: env.framesTo (i + 1))
        else ((env.framesTo (i + 1)).assign? name value).map _) = _
      by_cases hm : name ∈ env.bindingsAt (i + 1)
      · rw [if_pos hm, if_pos hm, Option.map_some, hhere (i + 1) hi]
      · rw [if_neg hm, if_neg hm, ih (by omega)]
        change _ = (env.resolve i name).map _
        cases hs : env.resolve i name with
        | none => rfl
        | some s =>
            -- the name is bound further out, so the map in front stays as it is
            have hle : s ≤ i := h.le_of_resolve (by omega) hs
            show some (_ :: _) = some (_ :: _)
            rw [bindingsAt_define env s name value hi, if_neg (by omega)]

/-! ## What the environment does, on the maps -/

namespace Represents

variable {env : Environment} {scope : Nat} {ms : Frames}

theorem get (h : env.Represents scope ms) (name : Token) :
    env.get scope name =
      match ms.get? name.lexeme with
      | some value => .ok value
      | none => .error (undefined name) := by
  have hi : scope < env.scopes.size := by
    rw [h.size]
    omega
  have hchain := h.stack.findSome?_chain name.lexeme hi
  rw [h.frames] at hchain
  unfold Environment.get
  cases hget : ms.get? name.lexeme with
  | some value => simp only [hchain, hget]
  | none => simp only [hchain, hget]

theorem define (h : env.Represents scope ms) (name : String) (value : Value) :
    (env.define scope name value).Represents scope (ms.define name value) where
  stack := h.stack.define scope name value
  size := by simpa [Environment.define] using h.size
  frames := by
    have hsize := h.size
    rw [← h.frames]
    show _ :: _ = _ :: _
    rw [bindingsAt_define env scope name value (by omega), if_pos rfl,
      framesTo_define env (Nat.le_refl scope) name value (by omega)]

/-- Assigning gives the scopes the maps that assigning in the maps leads to, or fails with it. -/
theorem assign (h : env.Represents scope ms) (name : Token) (value : Value) :
    match ms.assign? name.lexeme value with
    | some ms' => ∃ env', env.assign scope name value = .ok env' ∧ env'.Represents scope ms'
    | none => env.assign scope name value = .error (undefined name) := by
  have hi : scope < env.scopes.size := by
    rw [h.size]
    omega
  have heq := h.stack.assign?_framesTo name.lexeme value hi
  rw [h.frames] at heq
  rw [heq, Environment.assign]
  cases env.resolve scope name.lexeme with
  | none => rfl
  | some s =>
      refine ⟨env.define s name.lexeme value, rfl, h.stack.define s name.lexeme value, ?_, rfl⟩
      simpa [Environment.define] using h.size

/-- A new scope has no bindings. -/
theorem openScope (h : env.Represents scope ms) :
    (env.openScope scope).Represents env.scopes.size (∅ :: ms) where
  stack := by
    intro i hi
    have hsize := h.size
    simp only [Environment.openScope, Array.size_push] at hi
    simp only [Environment.openScope, Array.getElem_push]
    split
    · next hlt => exact h.stack i hlt
    · have hlast : i = scope + 1 := by omega
      subst hlast
      simp [Scope.empty, hsize]
  size := by simp [Environment.openScope]
  frames := by
    have hsize := h.size
    have hat : ∀ i < env.scopes.size, (env.openScope scope).bindingsAt i = env.bindingsAt i := by
      intro i hi
      simp only [bindingsAt, Environment.openScope, Array.getElem?_push_lt hi,
        Array.getElem?_eq_getElem hi]
    have hnew : (env.openScope scope).bindingsAt env.scopes.size = ∅ := by
      simp [bindingsAt, Environment.openScope, Scope.empty]
    rw [framesTo, hnew, framesTo_congr hat, hsize, h.frames]

/-- Closing the last scope takes its map away. -/
theorem closeScope {m : Std.ExtTreeMap String Value} (h : env.Represents (scope + 1) (m :: ms)) :
    (env.closeScope (scope + 1)).Represents scope ms where
  stack := by
    intro i hi
    simp only [Environment.closeScope, Array.take_eq_extract, Array.size_extract] at hi
    simp only [Environment.closeScope, Array.take_eq_extract, Array.getElem_extract, Nat.zero_add]
    exact h.stack i (by omega)
  size := by
    have hsize := h.size
    simp only [Environment.closeScope, Array.take_eq_extract, Array.size_extract]
    omega
  frames := by
    have hsize := h.size
    have hat : ∀ i < scope + 1,
        (env.closeScope (scope + 1)).bindingsAt i = env.bindingsAt i := by
      intro i hi
      have hlt : i < min (max (scope + 1) 1) env.scopes.size - 0 := by omega
      simp only [bindingsAt, Environment.closeScope, Array.take_eq_extract,
        Array.getElem?_extract, if_pos hlt, Nat.zero_add]
    rw [framesTo_congr hat]
    exact (List.cons.inj h.frames).2

end Represents

end Environment

end Lox
