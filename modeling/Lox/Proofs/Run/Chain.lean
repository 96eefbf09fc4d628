import Mathlib.Tactic
import Lox.Evaluation
import Lox.Proofs.Run.Stack

set_option autoImplicit false

/-! # The chain of scopes

From a scope one sees the scope itself, the scope that encloses it, and so on (`Environment.Sees`).
A name stands for the variable in the nearest scope that binds it (`Environment.Nearest`), for
reading and for assigning alike. An assignment sets this variable and leaves everything else as it
is, a definition does so in the scope it stands in, and a scope that is closed again leaves nothing
behind (`Environment.chain_laws`). All this holds of any scopes that are enclosed in earlier ones,
not only of a stack of scopes.
-/

namespace Lox

namespace Environment

/-! ## The scopes seen from a scope -/

/-- The scope that encloses the scope `i`, if there is one. -/
def outer? (env : Environment) (i : Nat) : Option Nat := env.scopes[i]?.bind (·.enclosing)

/-- `Sees env i k`: going from each scope to the one that encloses it, one comes from the scope `i`
to the scope `k`. -/
inductive Sees (env : Environment) : Nat → Nat → Prop
  | here {i : Nat} (h : i < env.scopes.size) : Sees env i i
  | outside {i j k : Nat} (h : env.outer? i = some j) (hs : Sees env j k) : Sees env i k

/-- `Nearest env name i k`: on the way out from the scope `i`, the scope `k` is the first that binds
the name. -/
inductive Nearest (env : Environment) (name : String) : Nat → Nat → Prop
  | here {i : Nat} (h : (env.slot? i name).isSome) : Nearest env name i i
  | outside {i j k : Nat} (h : env.slot? i name = none) (ho : env.outer? i = some j)
      (hs : Nearest env name j k) : Nearest env name i k

variable {env : Environment} {i j k : Nat} {name : String}

theorem lt_of_outer? (h : env.outer? i = some j) : i < env.scopes.size ∧ j < i := by
  obtain ⟨s, hs, hj⟩ := Option.bind_eq_some_iff.mp h
  obtain ⟨hi, rfl⟩ := Array.getElem?_eq_some_iff.mp hs
  exact ⟨hi, env.earlier i hi j hj⟩

theorem lt_of_isSome (h : (env.slot? i name).isSome) : i < env.scopes.size := by
  by_contra hge
  have hnone : env.scopes[i]? = none := Array.getElem?_eq_none (by omega)
  simp [slot?, hnone] at h

theorem chain_of_outer? (h : env.outer? i = some j) : env.chain i = i :: env.chain j := by
  have hi := (lt_of_outer? h).1
  rw [outer?, Array.getElem?_eq_getElem hi, Option.bind_some] at h
  rw [chain, dif_pos hi]
  split
  · next hnone => cases hnone.symm.trans h
  · next outer hsome =>
    cases hsome.symm.trans h
    rfl

theorem chain_of_last (hi : i < env.scopes.size) (h : env.outer? i = none) :
    env.chain i = [i] := by
  rw [outer?, Array.getElem?_eq_getElem hi, Option.bind_some] at h
  rw [chain, dif_pos hi]
  split
  · rfl
  · next outer hsome => cases hsome.symm.trans h

theorem chain_of_isSome (h : (env.slot? i name).isSome) : ∃ is, env.chain i = i :: is := by
  cases ho : env.outer? i with
  | none => exact ⟨[], chain_of_last (lt_of_isSome h) ho⟩
  | some j => exact ⟨env.chain j, chain_of_outer? ho⟩

/-- The chain from a scope holds what is seen from it. -/
theorem sees_of_mem_chain {i : Nat} (h : k ∈ env.chain i) : env.Sees i k := by
  -- on the number of the scope: the enclosing one has a smaller number
  induction i using Nat.strong_induction_on with
  | _ i ih =>
      by_cases hi : i < env.scopes.size
      · cases ho : env.outer? i with
        | none =>
            rw [chain_of_last hi ho, List.mem_singleton] at h
            subst h
            exact .here hi
        | some j =>
            rw [chain_of_outer? ho, List.mem_cons] at h
            rcases h with rfl | h
            · exact .here hi
            · exact .outside ho (ih j (lt_of_outer? ho).2 h)
      · rw [chain, dif_neg hi] at h
        cases h

/-! ## The variable that a name stands for -/

theorem Nearest.isSome (h : env.Nearest name i k) : (env.slot? k name).isSome := by
  induction h with
  | here h => exact h
  | outside _ _ _ ih => exact ih

theorem Nearest.sees (h : env.Nearest name i k) : env.Sees i k := by
  induction h with
  | here h => exact .here (lt_of_isSome h)
  | outside _ ho _ ih => exact .outside ho ih

/-- If a scope that is seen binds the name, there is a nearest one. -/
theorem Sees.exists_nearest (h : env.Sees i k) (hk : (env.slot? k name).isSome) :
    ∃ n, env.Nearest name i n := by
  induction h with
  | here _ => exact ⟨_, .here hk⟩
  | @outside i j k ho _ ih =>
      cases hslot : env.slot? i name with
      | some v => exact ⟨i, .here (by rw [hslot]; rfl)⟩
      | none =>
          obtain ⟨n, hn⟩ := ih hk
          exact ⟨n, .outside hslot ho hn⟩

theorem exists_nearest_iff :
    (∃ n, env.Nearest name i n) ↔ ∃ n, env.Sees i n ∧ (env.slot? n name).isSome :=
  ⟨fun ⟨n, h⟩ => ⟨n, h.sees, h.isSome⟩, fun ⟨_, hs, hsome⟩ => hs.exists_nearest hsome⟩

/-- Which scope is the nearest depends on the links and on the bound names only. -/
theorem Nearest.congr {env' : Environment} (h : env.Nearest name i k)
    (houter : ∀ j, env'.outer? j = env.outer? j)
    (hbound : ∀ j, (env'.slot? j name).isSome = (env.slot? j name).isSome) :
    env'.Nearest name i k := by
  induction h with
  | here h => exact .here ((hbound _).trans h)
  | @outside i _ _ h ho _ ih =>
      have hnone : env'.slot? i name = none := by
        rw [← Option.isNone_iff_eq_none, ← Option.not_isSome, hbound, h]
        rfl
      exact .outside hnone ((houter i).trans ho) ih

/-- Reading looks into the nearest scope that binds the name. -/
theorem Nearest.findSome?_chain (h : env.Nearest name i k) :
    (env.chain i).findSome? (fun s => env.slot? s name) = env.slot? k name := by
  induction h with
  | here h =>
      obtain ⟨is, his⟩ := chain_of_isSome h
      obtain ⟨v, hv⟩ := Option.isSome_iff_exists.mp h
      rw [his, List.findSome?_cons, hv]
  | outside h ho _ ih => rw [chain_of_outer? ho, List.findSome?_cons, h, ih]

/-- Assigning finds the same scope. -/
theorem Nearest.resolve_eq (h : env.Nearest name i k) : env.resolve i name = some k := by
  induction h with
  | here h =>
      obtain ⟨is, his⟩ := chain_of_isSome h
      rw [resolve, his, List.find?_cons, h]
  | outside h ho _ ih => rw [resolve, chain_of_outer? ho, List.find?_cons, h, ← ih]; rfl

theorem Nearest.unique {n : Nat} (h : env.Nearest name i k) (h' : env.Nearest name i n) : k = n :=
  Option.some.inj (h.resolve_eq.symm.trans h'.resolve_eq)

/-- A name that no scope on the way out binds is in no scope of the chain. -/
theorem slot?_eq_none_of_mem_chain (h : ¬∃ n, env.Nearest name i n) (hk : k ∈ env.chain i) :
    env.slot? k name = none := by
  rw [exists_nearest_iff] at h
  rw [← Option.not_isSome_iff_eq_none]
  exact fun hsome => h ⟨k, sees_of_mem_chain hk, hsome⟩

theorem Nearest.get_eq {name : Token} {value : Value} (h : env.Nearest name.lexeme i k)
    (hv : env.slot? k name.lexeme = some value) : env.get i name = .ok value := by
  have hchain := h.findSome?_chain
  rw [hv] at hchain
  rw [get, hchain]

theorem Nearest.assign_eq {name : Token} (h : env.Nearest name.lexeme i k) (value : Value) :
    env.assign i name value = .ok (env.define k name.lexeme value) := by
  rw [assign, h.resolve_eq]

theorem get_of_unbound {name : Token} (h : ¬∃ n, env.Nearest name.lexeme i n) :
    env.get i name = .error (undefined name) := by
  have hchain : (env.chain i).findSome? (fun s => env.slot? s name.lexeme) = none :=
    List.findSome?_eq_none_iff.mpr fun k hk => slot?_eq_none_of_mem_chain h hk
  rw [get, hchain]

theorem assign_of_unbound {name : Token} (h : ¬∃ n, env.Nearest name.lexeme i n) (value : Value) :
    env.assign i name value = .error (undefined name) := by
  have hresolve : env.resolve i name.lexeme = none :=
    List.find?_eq_none.mpr fun k hk => by simp [slot?_eq_none_of_mem_chain h hk]
  rw [assign, hresolve]

/-! ## Setting a variable -/

/-- The variable `name` of the scope `i` itself has the value `value` afterwards. No other variable
is set, and the scopes are the same, enclosed as before. -/
structure Sets (env : Environment) (i : Nat) (name : String) (value : Value)
    (env' : Environment) : Prop where
  size : env'.scopes.size = env.scopes.size
  outer : ∀ j, env'.outer? j = env.outer? j
  slot : env'.slot? i name = some value
  others : ∀ j y, ¬(j = i ∧ y = name) → env'.slot? j y = env.slot? j y

theorem slot?_define (env : Environment) {scope : Nat} (h : scope < env.scopes.size)
    (name : String) (value : Value) (i : Nat) (y : String) :
    (env.define scope name value).slot? i y =
      if i = scope ∧ y = name then some value else env.slot? i y := by
  by_cases hi : i < env.scopes.size
  · rw [slot?_eq, slot?_eq, bindingsAt_define env scope name value hi]
    by_cases hscope : scope = i
    · subst hscope
      have heq : compare name y = .eq ↔ y = name :=
        Std.LawfulEqCmp.compare_eq_iff_eq.trans eq_comm
      rw [if_pos rfl, Std.ExtTreeMap.getElem?_insert]
      simp only [heq, true_and]
    · rw [if_neg hscope, if_neg fun h => hscope h.1.symm]
  · have hne : ¬(i = scope ∧ y = name) := fun hboth => hi (hboth.1 ▸ h)
    have hsize : (env.define scope name value).scopes.size = env.scopes.size := by simp [define]
    have hnone : ∀ env' : Environment, env'.scopes.size = env.scopes.size →
        env'.slot? i y = none := by
      intro env' heq
      rw [slot?, Array.getElem?_eq_none (by omega), Option.bind_none]
    rw [if_neg hne, hnone _ hsize, hnone env rfl]

theorem outer?_define (env : Environment) (scope : Nat) (name : String) (value : Value) (i : Nat) :
    (env.define scope name value).outer? i = env.outer? i := by
  rw [outer?, outer?, define, Array.getElem?_modify]
  split
  · cases env.scopes[i]? <;> rfl
  · rfl

/-- A definition sets the variable of the scope it stands in. -/
theorem sets_define {scope : Nat} (h : scope < env.scopes.size) (name : String) (value : Value) :
    env.Sets scope name value (env.define scope name value) where
  size := by simp [define]
  outer := env.outer?_define scope name value
  slot := by rw [slot?_define env h, if_pos ⟨rfl, rfl⟩]
  others i y hne := by rw [slot?_define env h, if_neg hne]

namespace Sets

variable {value : Value} {env' : Environment}

/-- Setting a variable that is bound binds no name. -/
theorem isSome_eq (h : env.Sets k name value env') (hk : (env.slot? k name).isSome) (j : Nat)
    (y : String) : (env'.slot? j y).isSome = (env.slot? j y).isSome := by
  by_cases hboth : j = k ∧ y = name
  · obtain ⟨rfl, rfl⟩ := hboth
    rw [h.slot, hk]
    rfl
  · rw [h.others j y hboth]

/-- What a name stands for does not change when a variable that is bound is set. -/
theorem nearest_iff (h : env.Sets k name value env') (hk : (env.slot? k name).isSome) {y : String}
    {n : Nat} : env'.Nearest y j n ↔ env.Nearest y j n :=
  ⟨fun hn => hn.congr (fun i => (h.outer i).symm) fun i => (h.isSome_eq hk i y).symm,
    fun hn => hn.congr h.outer fun i => h.isSome_eq hk i y⟩

/-- All reading goes on as before, but for names that stand for the variable that was set. -/
theorem get_eq (h : env.Sets k name value env') (hk : (env.slot? k name).isSome) {other : Token}
    (hne : ¬(other.lexeme = name ∧ env.Nearest other.lexeme j k)) :
    env'.get j other = env.get j other := by
  by_cases hbound : ∃ n, env.Nearest other.lexeme j n
  · obtain ⟨n, hn⟩ := hbound
    obtain ⟨v, hv⟩ := Option.isSome_iff_exists.mp hn.isSome
    have hv' : env'.slot? n other.lexeme = some v := by
      rw [h.others n other.lexeme fun hboth => hne ⟨hboth.2, hboth.1 ▸ hn⟩, hv]
    rw [hn.get_eq hv, ((h.nearest_iff hk).mpr hn).get_eq hv']
  · have hbound' : ¬∃ n, env'.Nearest other.lexeme j n :=
      fun ⟨n, hn⟩ => hbound ⟨n, (h.nearest_iff hk).mp hn⟩
    rw [get_of_unbound hbound, get_of_unbound hbound']

end Sets

/-! ## Opening and closing -/

/-- Binds names in the scope `scope` itself, one after the other. -/
def defineAll (env : Environment) (scope : Nat) (bindings : List (String × Value)) : Environment :=
  bindings.foldl (fun env b => env.define scope b.1 b.2) env

theorem eq_of_scopes {env env' : Environment} (h : env.scopes = env'.scopes) : env = env' := by
  cases env
  cases env'
  cases h
  rfl

/-- What was bound in a scope is gone when the scope is closed. -/
theorem closeScope_define (env : Environment) {scope : Nat} (h : 0 < scope) (name : String)
    (value : Value) : (env.define scope name value).closeScope scope = env.closeScope scope := by
  apply eq_of_scopes
  simp only [closeScope, define, Array.take_eq_extract]
  apply Array.ext
  · simp
  · intro i hi _
    have hlt : i < max scope 1 := by
      simp only [Array.size_extract] at hi
      omega
    simp only [Array.getElem_extract, Nat.zero_add]
    rw [Array.getElem_modify, if_neg (by omega)]

theorem closeScope_defineAll (env : Environment) {scope : Nat} (h : 0 < scope)
    (bindings : List (String × Value)) :
    (env.defineAll scope bindings).closeScope scope = env.closeScope scope := by
  induction bindings generalizing env with
  | nil => rfl
  | cons b bs ih => exact (ih (env.define scope b.1 b.2)).trans (closeScope_define env h b.1 b.2)

theorem getElem?_openScope (env : Environment) (inside : Nat) (h : i < env.scopes.size) :
    (env.openScope inside).scopes[i]? = env.scopes[i]? := by
  rw [openScope, Array.getElem?_push_lt h, Array.getElem?_eq_getElem h]

theorem getElem?_closeScope (env : Environment) {scope : Nat} (h : i < scope) :
    (env.closeScope scope).scopes[i]? = env.scopes[i]? := by
  simp only [closeScope, Array.take_eq_extract, Array.getElem?_extract]
  split
  · rw [Nat.zero_add]
  · exact (Array.getElem?_eq_none (by omega)).symm

theorem closeScope_openScope (env : Environment) (inside : Nat) :
    (env.openScope inside).closeScope env.scopes.size = env := by
  apply eq_of_scopes
  have hpos := env.nonempty
  have hmax : max env.scopes.size 1 = env.scopes.size := by omega
  simp only [closeScope, openScope, Array.take_eq_extract, hmax]
  rw [Array.extract_push, if_pos (Nat.le_refl _), Array.extract_size]

/-! ## The laws -/

/-- **Laws of the scope chain.** In the scope `scope` of any environment, reading and assigning a
name both succeed if a scope that is seen from there binds the name, and fail in the same way
otherwise, with nothing changed. Reading yields the variable in the nearest scope that binds the
name. Assigning sets this variable, which was bound before, and no other, so that afterwards all
names are read as before unless they stand for it. A definition sets the variable of the scope
itself. Opening a scope, defining names in it and closing it changes nothing. -/
theorem chain_laws (env : Environment) {scope : Nat} (hscope : scope < env.scopes.size)
    (name : Token) (value : Value) :
    ((∃ n, env.Nearest name.lexeme scope n) ↔
      ∃ n, env.Sees scope n ∧ (env.slot? n name.lexeme).isSome) ∧
    (∀ n, env.Nearest name.lexeme scope n → ∃ old env',
      env.slot? n name.lexeme = some old ∧
      Evaluation.get scope name env = .ok old env ∧
      Evaluation.assign scope name value env = .ok () env' ∧
      env.Sets n name.lexeme value env' ∧
      Evaluation.get scope name env' = .ok value env' ∧
      ∀ scope' other, ¬(other.lexeme = name.lexeme ∧ env.Nearest other.lexeme scope' n) →
        env'.get scope' other = env.get scope' other) ∧
    ((¬∃ n, env.Sees scope n ∧ (env.slot? n name.lexeme).isSome) →
      Evaluation.get scope name env =
        .error (.runtime ⟨name, .undefinedVariable name.lexeme⟩) env ∧
      Evaluation.assign scope name value env =
        .error (.runtime ⟨name, .undefinedVariable name.lexeme⟩) env) ∧
    env.Sets scope name.lexeme value (env.define scope name.lexeme value) ∧
    (env.openScope scope).outer? env.scopes.size = some scope ∧
    ∀ bindings : List (String × Value),
      ((env.openScope scope).defineAll env.scopes.size bindings).closeScope env.scopes.size =
        env := by
  refine ⟨exists_nearest_iff, fun n hn => ?_, fun hunbound => ?_, sets_define hscope _ _, ?_,
    fun bindings => ?_⟩
  · obtain ⟨old, hold⟩ := Option.isSome_iff_exists.mp hn.isSome
    have hsets := sets_define (lt_of_isSome hn.isSome) name.lexeme value
    have hget' := ((hsets.nearest_iff hn.isSome).mpr hn).get_eq hsets.slot
    refine ⟨old, _, hold, ?_, ?_, hsets, ?_, fun scope' other => hsets.get_eq hn.isSome⟩
    · rw [Evaluation.get, hn.get_eq hold]
    · rw [Evaluation.assign, hn.assign_eq]
    · rw [Evaluation.get, hget']
  · rw [← exists_nearest_iff] at hunbound
    constructor
    · rw [Evaluation.get, get_of_unbound hunbound]
      rfl
    · rw [Evaluation.assign, assign_of_unbound hunbound]
      rfl
  · have hmin : min scope (env.scopes.size - 1) = scope := by omega
    simp [outer?, openScope, Scope.empty, hmin]
  · rw [closeScope_defineAll _ env.nonempty, closeScope_openScope]

/-- An environment with two scopes in the global one. The global scope binds `a` and `b`, each of
the others binds `a`. -/
def siblings : Environment :=
  ((((initial.defineAll global [("a", .nil), ("b", .nil)]).openScope global).define 1 "a"
    (.boolean true)).openScope global).define 2 "a" (.boolean false)

/-- In the second of two scopes beside each other, `b` stands for the global variable, and nothing
else is set when it is. The first scope is not on the way out, and `c` is bound nowhere. -/
theorem chain_laws_siblings :
    2 < siblings.scopes.size ∧ siblings.Nearest "b" 2 0 ∧
      (∃ env', Evaluation.assign 2 ⟨.identifier, "b", none, 1⟩ (.boolean true) siblings =
          .ok () env' ∧
        siblings.Sets 0 "b" (.boolean true) env') ∧
      (¬∃ n, siblings.Sees 2 n ∧ (siblings.slot? n "c").isSome) ∧
      Evaluation.get 2 ⟨.identifier, "c", none, 1⟩ siblings =
        .error (.runtime ⟨⟨.identifier, "c", none, 1⟩, .undefinedVariable "c"⟩) siblings := by
  have hsize : 2 < siblings.scopes.size := by decide +kernel
  have hnearest : siblings.Nearest "b" 2 0 :=
    .outside (by decide +kernel) (by decide +kernel) (.here (by decide +kernel))
  have hunbound : ¬∃ n, siblings.Sees 2 n ∧ (siblings.slot? n "c").isSome := by
    rintro ⟨n, hsees, hsome⟩
    have hnone : ∀ n < 3, siblings.slot? n "c" = none := by decide +kernel
    rw [hnone n (lt_of_isSome hsome)] at hsome
    cases hsome
  obtain ⟨-, hbound, -⟩ := chain_laws siblings hsize ⟨.identifier, "b", none, 1⟩ (.boolean true)
  obtain ⟨-, -, hfails, -⟩ := chain_laws siblings hsize ⟨.identifier, "c", none, 1⟩ .nil
  obtain ⟨old, env', -, -, hassign, hsets, -⟩ := hbound 0 hnearest
  exact ⟨hsize, hnearest, ⟨env', hassign, hsets⟩, hunbound, (hfails hunbound).1⟩

end Environment

end Lox
