import Mathlib.Tactic
import Lox.Proofs.Run.Turn
import Lox.Token.Stream

set_option autoImplicit false

/-! # Scoping is lexical

Variables are looked up while a program runs, along the chain of open scopes. Still the program text
alone says which scope a name stands for. In every turn of a run, the scope of each block that is
being executed binds the names that are declared in the list of the block in front of the place
that the run has come to (`Environment.IsLexical`). So every access to a variable acts on the scope
of the innermost block that has declared its name there, or else on the global scope
(`Program.scoping_lexical`).

The invariant along a run is told of the maps of the semantics (`Semantics.Frames.Binds`): a
statement binds new names in the first map only, and a block begins with an empty one.
-/

namespace Lox

open Semantics Execution

/-! ## Accesses -/

/-- What the evaluation of a name, or of an assignment once it has its value, does to a variable. -/
inductive Access where
  | read (name : Token)
  | write (name : Token) (value : Value)

namespace Access

/-- The name of the variable. -/
def name : Access → Token
  | read name | write name _ => name

/-- The access as evaluation in the scope `scope` makes it, which looks up what the name stands
for. -/
def perform (scope : Nat) : Access → Evaluation Value
  | read name => Evaluation.get scope name
  | write name value => do
    Evaluation.assign scope name value
    pure value

/-- The access to the variable of the scope `i` itself. It fails if there is none. -/
def actsOn (i : Nat) : Access → Evaluation Value
  | read name => fun env =>
    match env.slot? i name.lexeme with
    | some value => .ok value env
    | none => .error (.runtime (Environment.undefined name)) env
  | write name value => fun env =>
    if (env.slot? i name.lexeme).isSome then .ok value (env.define i name.lexeme value)
    else .error (.runtime (Environment.undefined name)) env

end Access

namespace Expr

/-- `Performs scope e env access env'`: while the expression `e` is evaluated in the scope `scope`,
from the environment `env` on, it comes to the access `access` in the environment `env'`. -/
inductive Performs (scope : Nat) : Expr → Environment → Access → Environment → Prop
  | read {name : Token} {env : Environment} : Performs scope (.var name) env (.read name) env
  | write {name : Token} {value : Expr} {v : Value} {env env' : Environment}
      (h : value.evaluate scope env = .ok v env') :
      Performs scope (.assign name value) env (.write name v) env'
  | value {name : Token} {value : Expr} {access : Access} {env env' : Environment}
      (h : Performs scope value env access env') :
      Performs scope (.assign name value) env access env'
  | grouping {inner : Expr} {access : Access} {env env' : Environment}
      (h : Performs scope inner env access env') : Performs scope (.grouping inner) env access env'
  | operand {operator : Token} {operand : Expr} {access : Access} {env env' : Environment}
      (h : Performs scope operand env access env') :
      Performs scope (.unary operator operand) env access env'
  | left {left right : Expr} {operator : Token} {access : Access} {env env' : Environment}
      (h : Performs scope left env access env') :
      Performs scope (.binary left operator right) env access env'
  | right {left right : Expr} {operator : Token} {access : Access} {v : Value}
      {env env₁ env' : Environment} (hl : left.evaluate scope env = .ok v env₁)
      (h : Performs scope right env₁ access env') :
      Performs scope (.binary left operator right) env access env'
  | first {left right : Expr} {operator : Token} {access : Access} {env env' : Environment}
      (h : Performs scope left env access env') :
      Performs scope (.logical left operator right) env access env'
  | second {left right : Expr} {operator : Token} {access : Access} {v : Value}
      {env env₁ env' : Environment} (hl : left.evaluate scope env = .ok v env₁)
      (hd : operator.decides v = .ok false) (h : Performs scope right env₁ access env') :
      Performs scope (.logical left operator right) env access env'

/-- The environment of an access is one that the evaluation passes through. -/
theorem Performs.passes {scope : Nat} {e : Expr} {access : Access} {env env' : Environment}
    (h : Performs scope e env access env') : e.Passes scope env env' := by
  induction h with
  | read => exact .start
  | write h => exact .value (.finish (r := .ok _) h)
  | value _ ih => exact .value ih
  | grouping _ ih => exact .grouping ih
  | operand _ ih => exact .operand ih
  | left _ ih => exact .left ih
  | right hl _ ih => exact .right hl ih
  | first _ ih => exact .first ih
  | second hl hd _ ih => exact .second hl hd ih

end Expr

/-! ## Names that are declared in front of a place -/

/-- The scope of the innermost of the lists that declares the name, or else the global scope. The
scopes of the lists go by number, from that of the last list on, which is the global one. -/
def Stmt.scopeIn (name : String) : List (List Stmt) → Nat
  | [] => Environment.global
  | ss :: outer => if name ∈ declaredIn ss then outer.length else scopeIn name outer

namespace Place

/-- What is done of the lists of statements that a place is in, from the inside out. -/
def lists (p : Place) : List (List Stmt) := p.done :: p.around

/-- What is done of the list of statements that is executed in the scope `i`. -/
def list? (p : Place) (i : Nat) : Option (List Stmt) := p.lists.reverse[i]?

/-- The scope that a name stands for at a place. -/
def scopeOf (p : Place) (name : String) : Nat := Stmt.scopeIn name p.lists

end Place

/-- There is one scope for each list of statements that the place is in. It binds the names that are
declared in the list in front of the place and, if it is the global one, those that were bound
before. -/
structure Environment.IsLexical (globals : Std.ExtTreeMap String Value) (p : Place)
    (env : Environment) : Prop where
  size : env.scopes.size = p.depth + 1
  bound : ∀ i ss, p.list? i = some ss → ∀ name, (env.slot? i name).isSome ↔
    name ∈ Stmt.declaredIn ss ∨ i = Environment.global ∧ name ∈ globals

/-! ## What a name stands for -/

namespace Environment

variable {globals : Std.ExtTreeMap String Value} {env : Environment}

/-- On the way out from the last scope, no scope binds the name before the one it stands for. If
that does not bind it either, there is none further out. -/
theorem IsStack.exists_chain (hstack : env.IsStack) (name : String) {ss : List Stmt}
    {outer : List (List Stmt)} (hsize : outer.length < env.scopes.size)
    (h : ∀ i ss', (ss :: outer).reverse[i]? = some ss' → ((env.slot? i name).isSome ↔
      name ∈ Stmt.declaredIn ss' ∨ i = global ∧ name ∈ globals)) :
    ∃ before behind, env.chain outer.length =
        before ++ Stmt.scopeIn name (ss :: outer) :: behind ∧
      (∀ i ∈ before, env.slot? i name = none) ∧
      (env.slot? (Stmt.scopeIn name (ss :: outer)) name = none →
        behind = [] ∧ Stmt.scopeIn name (ss :: outer) = global) := by
  induction outer generalizing ss with
  | nil =>
      have hzero : Stmt.scopeIn name [ss] = 0 := by
        rw [Stmt.scopeIn]
        split
        · rfl
        · rfl
      rw [hzero]
      exact ⟨[], [], hstack.chain_zero, by simp, fun _ => ⟨rfl, rfl⟩⟩
  | cons ss' outer ih =>
      have hchain : env.chain (ss' :: outer).length =
          (outer.length + 1) :: env.chain outer.length := hstack.chain_succ hsize
      have hlast : (env.slot? (outer.length + 1) name).isSome ↔ name ∈ Stmt.declaredIn ss := by
        have hhere := h (outer.length + 1) ss (by simp)
        simpa [global] using hhere
      rw [Stmt.scopeIn, hchain]
      by_cases hname : name ∈ Stmt.declaredIn ss
      · rw [if_pos hname]
        refine ⟨[], env.chain outer.length, rfl, by simp, fun hnone => ?_⟩
        have hsome := hlast.mpr hname
        rw [List.length_cons] at hnone
        simp [hnone] at hsome
      · rw [if_neg hname]
        have hnone : env.slot? (outer.length + 1) name = none := by
          rw [← Option.not_isSome_iff_eq_none]
          exact fun hsome => hname (hlast.mp hsome)
        -- the lists further out keep their numbers
        obtain ⟨before, behind, heq, hbefore, hbehind⟩ := ih
          (by rw [List.length_cons] at hsize; omega) fun i ss'' hi => h i ss'' (by
            rw [List.reverse_cons]
            exact List.getElem?_append_left (List.getElem?_eq_some_iff.mp hi).1 ▸ hi)
        refine ⟨(outer.length + 1) :: before, behind, by rw [heq]; rfl, ?_, hbehind⟩
        intro i hi
        rcases List.mem_cons.mp hi with rfl | hi
        · exact hnone
        · exact hbefore i hi

section Lookup

variable {p : Place} (h : env.IsLexical globals p) (hstack : env.IsStack) (name : String)

include h hstack

/-- Lookup ends in the scope that the name stands for by its place in the program. Only in the
global scope it may be unbound. -/
theorem IsLexical.lookup :
    (env.chain p.depth).findSome? (fun s => env.slot? s name) = env.slot? (p.scopeOf name) name ∧
      env.resolve p.depth name =
        (if (env.slot? (p.scopeOf name) name).isSome then some (p.scopeOf name) else none) ∧
      (p.scopeOf name ≠ global → (env.slot? (p.scopeOf name) name).isSome) := by
  have hsize : p.around.length < env.scopes.size := by
    rw [h.size, Place.depth]
    omega
  have hlook := hstack.exists_chain name hsize fun i ss hi => h.bound i ss hi name
  obtain ⟨before, behind, hchain, hbefore, hbehind⟩ := hlook
  change env.chain p.depth = before ++ p.scopeOf name :: behind at hchain
  change env.slot? (p.scopeOf name) name = none → behind = [] ∧ p.scopeOf name = global at hbehind
  have hnone : before.find? (fun s => (env.slot? s name).isSome) = none :=
    List.find?_eq_none.mpr fun i hi => by simp [hbefore i hi]
  have hnone' : before.findSome? (fun s => env.slot? s name) = none :=
    List.findSome?_eq_none_iff.mpr hbefore
  rw [resolve, hchain, List.findSome?_append, hnone', Option.none_or, List.findSome?_cons,
    List.find?_append, hnone, Option.none_or, List.find?_cons]
  cases hslot : env.slot? (p.scopeOf name) name with
  | some value => exact ⟨rfl, rfl, fun _ => rfl⟩
  | none =>
      -- the name stands for a global variable, and no scope is further out
      obtain ⟨rfl, hglobal⟩ := hbehind hslot
      exact ⟨rfl, rfl, fun hne => absurd hglobal hne⟩

end Lookup

/-- An access is the one to the variable of the scope that its name stands for by its place. -/
theorem IsLexical.perform_eq {p : Place} (h : env.IsLexical globals p) (hstack : env.IsStack)
    (access : Access) :
    access.perform p.depth env = access.actsOn (p.scopeOf access.name.lexeme) env := by
  cases access with
  | read name =>
      obtain ⟨hget, -, -⟩ := h.lookup hstack name.lexeme
      show Evaluation.get p.depth name env =
        Access.actsOn (p.scopeOf name.lexeme) (.read name) env
      rw [Evaluation.get, Environment.get, hget]
      cases hslot : env.slot? (p.scopeOf name.lexeme) name.lexeme with
      | some value => simp only [Access.actsOn, hslot]
      | none => simp only [Access.actsOn, hslot]
  | write name value =>
      obtain ⟨-, hresolve, -⟩ := h.lookup hstack name.lexeme
      show (Evaluation.assign p.depth name value >>= fun _ => pure value) env =
        Access.actsOn (p.scopeOf name.lexeme) (.write name value) env
      cases hslot : env.slot? (p.scopeOf name.lexeme) name.lexeme with
      | some old =>
          have hrun : Evaluation.assign p.depth name value env =
              .ok () (env.define (p.scopeOf name.lexeme) name.lexeme value) := by
            rw [Evaluation.assign, Environment.assign, hresolve, hslot]
            rfl
          rw [bind_of_ok hrun]
          simp only [Access.actsOn, hslot]
          rfl
      | none =>
          have hrun : Evaluation.assign p.depth name value env =
              .error (.runtime (undefined name)) env := by
            rw [Evaluation.assign, Environment.assign, hresolve, hslot]
            rfl
          rw [bind_of_error hrun]
          simp only [Access.actsOn, hslot]
          rfl

end Environment

/-! ## Names that are bound -/

namespace Semantics.Frames

/-- The maps bind the names that the lists declare, and the last map the names of `globals` too. -/
inductive Binds (globals : Std.ExtTreeMap String Value) : Frames → List (List Stmt) → Prop
  | global {m : Std.ExtTreeMap String Value} {ss : List Stmt}
      (h : ∀ name, name ∈ m ↔ name ∈ Stmt.declaredIn ss ∨ name ∈ globals) :
      Binds globals [m] [ss]
  | block {m : Std.ExtTreeMap String Value} {ms : Frames} {ss : List Stmt}
      {lists : List (List Stmt)} (h : ∀ name, name ∈ m ↔ name ∈ Stmt.declaredIn ss)
      (hs : Binds globals ms lists) : Binds globals (m :: ms) (ss :: lists)

namespace Binds

variable {globals : Std.ExtTreeMap String Value} {ms ms' : Frames} {lists : List (List Stmt)}

theorem sameNames (h : Binds globals ms lists) (hs : SameNames ms ms') :
    Binds globals ms' lists := by
  induction h generalizing ms' with
  | global h =>
      cases hs with
      | cons hm hs =>
          cases hs
          exact .global fun name => (hm name).trans (h name)
  | block h _ ih =>
      cases hs with
      | cons hm hs => exact .block (fun name => (hm name).trans (h name)) (ih hs)

/-- What the first map gains, the first list has declared. -/
theorem gains {ss ss' : List Stmt} (h : Binds globals ms (ss :: lists))
    (hs : Gains (Stmt.declaredIn ss') ms ms') : Binds globals ms' ((ss ++ ss') :: lists) := by
  have hdeclared : ∀ name, name ∈ Stmt.declaredIn (ss ++ ss') ↔
      name ∈ Stmt.declaredIn ss ∨ name ∈ Stmt.declaredIn ss' := by
    intro name
    rw [Stmt.declaredIn, List.filterMap_append, List.mem_append]
    rfl
  cases h with
  | global h =>
      cases hs with
      | mk hm hs =>
          cases hs
          refine .global fun name => ?_
          rw [hm, h, hdeclared, or_right_comm]
  | block h hrest =>
      cases hs with
      | mk hm hs =>
          refine .block (fun name => ?_) (hrest.sameNames hs)
          rw [hm, h, hdeclared]

/-- The names are bound in the scopes that the maps stand for. -/
theorem bound {env : Environment} {n : Nat} (h : Binds globals (env.framesTo n) lists) :
    lists.length = n ∧ ∀ i ss, lists.reverse[i]? = some ss → ∀ name,
      ((env.slot? i name).isSome ↔
        name ∈ Stmt.declaredIn ss ∨ i = Environment.global ∧ name ∈ globals) := by
  generalize hms : env.framesTo n = ms at h
  induction h generalizing n with
  | @global m ss h =>
      cases n with
      | zero => cases hms
      | succ n =>
          obtain ⟨rfl, hrest⟩ := List.cons.inj hms
          obtain rfl : n = 0 := by
            cases n with
            | zero => rfl
            | succ n => cases hrest
          refine ⟨rfl, fun i ss' hi name => ?_⟩
          obtain ⟨hlt, rfl⟩ := List.getElem?_eq_some_iff.mp hi
          obtain rfl : i = 0 := by simpa using hlt
          have hmem : (env.slot? 0 name).isSome ↔ name ∈ env.bindingsAt 0 := by
            simp [Environment.slot?_eq]
          simpa [hmem, Environment.global] using h name
  | @block m ms ss lists h hs ih =>
      cases n with
      | zero => cases hms
      | succ n =>
          obtain ⟨rfl, hrest⟩ := List.cons.inj hms
          obtain ⟨rfl, hbound⟩ := ih hrest
          refine ⟨rfl, fun i ss' hi name => ?_⟩
          rw [List.reverse_cons] at hi
          by_cases hlt : i < lists.reverse.length
          · rw [List.getElem?_append_left hlt] at hi
            exact hbound i ss' hi name
          · -- the first map stands for the last scope, which is not the global one
            obtain ⟨hlen, -⟩ := List.getElem?_eq_some_iff.mp hi
            simp only [List.length_append, List.length_reverse, List.length_singleton] at hlen hlt
            obtain rfl : i = lists.length := by omega
            have hpos : lists.length ≠ Environment.global := by
              cases hs <;> exact Nat.succ_ne_zero _
            have hmem : (env.slot? lists.length name).isSome ↔
                name ∈ env.bindingsAt lists.length := by
              simp [Environment.slot?_eq]
            obtain rfl : ss = ss' := by simpa using hi
            rw [hmem, h]
            constructor
            · exact .inl
            · rintro (hname | ⟨hzero, -⟩)
              · exact hname
              · exact absurd hzero hpos

end Binds

end Semantics.Frames

/-! ## Names that are bound in a turn -/

namespace Environment

/-- In its last scope, the scope `scope`, and in those around it the environment binds the names
that are declared in front of the place. -/
def BindsAt (globals : Std.ExtTreeMap String Value) (p : Place) (scope : Nat)
    (env : Environment) : Prop :=
  ∃ ms, env.Represents scope ms ∧ ms.Binds globals p.lists

variable {globals : Std.ExtTreeMap String Value} {p : Place} {scope : Nat} {env env' : Environment}

theorem BindsAt.depth_eq (h : env.BindsAt globals p scope) : scope = p.depth := by
  obtain ⟨ms, hrep, hbinds⟩ := h
  rw [← hrep.frames] at hbinds
  have hlength : p.around.length + 1 = scope + 1 := hbinds.bound.1
  rw [Place.depth]
  omega

theorem BindsAt.isLexical (h : env.BindsAt globals p scope) : env.IsLexical globals p := by
  have hdepth := h.depth_eq
  obtain ⟨ms, hrep, hbinds⟩ := h
  rw [← hrep.frames] at hbinds
  exact ⟨by rw [hrep.size, hdepth], hbinds.bound.2⟩

/-- Evaluation binds no names. -/
theorem BindsAt.passes (h : env.BindsAt globals p scope) {e : Expr}
    (he : e.Passes scope env env') : env'.BindsAt globals p scope := by
  obtain ⟨ms, hrep, hbinds⟩ := h
  obtain ⟨ms', hsame, hrep'⟩ := he.represents hrep
  exact ⟨ms', hrep', hbinds.sameNames hsame⟩

end Environment

section Turns

variable {ω : Type} {globals : Std.ExtTreeMap String Value} {p : Place} {scope : Nat}
  {s t : Interpreter ω}

/-- A block begins with no names in its scope. -/
theorem bindsAt_entered (h : s.environment.BindsAt globals p scope) :
    (s.entered scope).environment.BindsAt globals p.enter s.environment.scopes.size := by
  obtain ⟨ms, hrep, hbinds⟩ := h
  exact ⟨∅ :: ms, hrep.openScope, .block (by simp [Stmt.declaredIn, Place.enter]) hbinds⟩

variable [Writer ω]

/-- Behind a statement that is done, its name is bound as well if it is a declaration. A statement
that fails binds none. -/
theorem bindsAt_executed {st : Stmt} {o : Outcome} (h : s.environment.BindsAt globals p scope)
    (hplaced : st.WellPlaced) (hrun : st.execute scope s = ended o.result t) :
    t.environment.BindsAt globals (if o = .done then p.behind st else p) scope := by
  obtain ⟨ms, hrep, hbinds⟩ := h
  have hrep : s.Represents scope ⟨ms, s.output⟩ := ⟨hrep, rfl⟩
  obtain ⟨σ', hex, hrep'⟩ := hrep.executed hrun
  have hne : ms ≠ [] := by
    rintro rfl
    cases hbinds
  obtain ⟨names, hgains, hnames⟩ := hex.gains hne
  obtain rfl := hnames hplaced
  refine ⟨σ'.frames, hrep'.frames, ?_⟩
  by_cases ho : o = .done
  · rw [Outcome.gained, if_pos ho] at hgains
    rw [if_pos ho]
    have hdeclared : st.declared?.toList = Stmt.declaredIn [st] := by
      rw [Stmt.declaredIn, List.filterMap_cons, List.filterMap_nil]
      cases st.declared? <;> rfl
    rw [hdeclared] at hgains
    exact hbinds.gains hgains
  · rw [Outcome.gained, if_neg ho] at hgains
    rw [if_neg ho]
    have hsame : p.lists = (p.done ++ []) :: p.around := by rw [List.append_nil, Place.lists]
    have hnone : Frames.Gains (Stmt.declaredIn []) ms σ'.frames := hgains
    rw [hsame]
    exact hbinds.gains hnone

/-- At the start of the turn the names are bound that are declared in front of its place, and no
branch in its statement is a declaration. -/
structure Turn.IsBound (globals : Std.ExtTreeMap String Value) (turn : Turn ω) : Prop where
  binds : turn.interpreter.environment.BindsAt globals turn.place turn.scope
  placed : ∀ st ∈ turn.statement, st.WellPlaced

/-- The names are bound all through the turn. -/
theorem Turn.IsBound.passes {turn : Turn ω} (h : turn.IsBound globals) {env : Environment}
    (hpasses : turn.Passes env) : env.BindsAt globals turn.place turn.scope := by
  cases hpasses with
  | start => exact h.binds
  | evaluating _ _ he => exact h.binds.passes he
  | failed hst hrun ho =>
      have hbinds := bindsAt_executed h.binds (h.placed _ hst) hrun
      rwa [if_neg ho] at hbinds

namespace Stmt

mutual

/-- The names are bound in every turn of a statement if they are when it starts. -/
theorem HasTurn.isBound {p : Place} {scope : Nat} {st : Stmt} {s : Interpreter ω} {turn : Turn ω} :
    HasTurn p scope st s turn → st.WellPlaced → s.environment.BindsAt globals p scope →
      turn.IsBound globals
  | .here, hplaced, hbinds => ⟨hbinds, fun _ hst => Option.some.inj hst ▸ hplaced⟩
  | .inside h, hplaced, hbinds => h.isBound hplaced (bindsAt_entered (s := s.noted _) hbinds)
  | .thenBranch hc _ h, hplaced, hbinds =>
      h.isBound hplaced.2 (hbinds.passes (Expr.passes_of_evaluation hc))
  | .firstBranch hc _ h, hplaced, hbinds =>
      h.isBound hplaced.1.2 (hbinds.passes (Expr.passes_of_evaluation hc))
  | .secondBranch hc _ h, hplaced, hbinds =>
      h.isBound hplaced.2.2 (hbinds.passes (Expr.passes_of_evaluation hc))

theorem HaveTurn.isBound {p : Place} {scope : Nat} {ss : List Stmt} {s : Interpreter ω}
    {turn : Turn ω} :
    HaveTurn p scope ss s turn → AllWellPlaced ss → s.environment.BindsAt globals p scope →
      turn.IsBound globals
  | .nil, _, hbinds => ⟨hbinds, nofun⟩
  | .here h, hplaced, hbinds => h.isBound hplaced.1 hbinds
  | .later hrun hs, hplaced, hbinds =>
      hs.isBound hplaced.2 (bindsAt_executed (o := .done) hbinds hplaced.1 hrun)

end

end Stmt

end Turns

namespace Program

variable {ω : Type} [Writer ω]

/-- **Lexical scoping.** Let what was read from tokens be executed, with any global variables. Every
moment is in a turn, and a turn comes where its statement stands in the program. All through a turn,
each scope binds the names that are declared in front of the place in its list of statements, and
the global scope those that were bound before too. An access in a turn acts on the scope of the
innermost list that has declared its name there, or else on the global scope; the place in the
program says which, whatever has happened before. -/
theorem scoping_lexical (ts : List Token) (bindings : Std.ExtTreeMap String Value) (output : ω)
    (trace : Array Event) :
    (∀ m, Interpreter.Visits (ofTokens ts).statements (.between bindings output trace) m →
      ∃ turn, Stmt.HaveTurn .top Environment.global (ofTokens ts).statements
        (.between bindings output trace) turn ∧ m.IsIn turn) ∧
    ∀ turn, Stmt.HaveTurn .top Environment.global (ofTokens ts).statements
        (.between bindings output trace) turn →
      Stmt.StandAll .top (ofTokens ts).statements turn.place turn.statement ∧
      turn.scope = turn.place.depth ∧
      (∀ env, turn.Passes env → env.IsLexical bindings turn.place) ∧
      ∀ st e access env, turn.statement = some st → st.evaluated? = some e →
        e.Performs turn.scope turn.interpreter.environment access env →
        access.perform turn.scope env =
            access.actsOn (turn.place.scopeOf access.name.lexeme) env ∧
          (turn.place.scopeOf access.name.lexeme ≠ Environment.global →
            (env.slot? (turn.place.scopeOf access.name.lexeme) access.name.lexeme).isSome) := by
  refine ⟨fun m hm => hm.isIn, fun turn hturn => ?_⟩
  have hstart : (Interpreter.between bindings output trace).environment.BindsAt bindings .top
      Environment.global := by
    refine ⟨[bindings], (Interpreter.represents_between bindings output trace).frames, ?_⟩
    exact .global (by simp [Stmt.declaredIn, Place.top])
  have hbound := hturn.isBound (allWellPlaced_statements ts) hstart
  have hdepth := hbound.binds.depth_eq
  refine ⟨hturn.stand, hdepth, fun env henv => (hbound.passes henv).isLexical, ?_⟩
  intro st e access env hst he hperforms
  have hpasses : turn.Passes env := .evaluating hst he hperforms.passes
  have hlexical := (hbound.passes hpasses).isLexical
  obtain ⟨ms, hrep, -⟩ := hbound.passes hpasses
  obtain ⟨-, -, hslot⟩ := hlexical.lookup hrep.stack access.name.lexeme
  refine ⟨?_, hslot⟩
  rw [hdepth]
  exact hlexical.perform_eq hrep.stack access

/-- `var a = nil;` -/
def declaration : Stmt := .declare ⟨.identifier, "a", none, 1⟩ (some (.literal .nil))

/-- `var a = nil; { var a = nil; a = nil; }` -/
def shadowing : List Stmt :=
  [declaration,
   .block [declaration, .expression (.assign ⟨.identifier, "a", none, 1⟩ (.literal .nil))]]

/-- Behind its declaration in the block, the name stands for the variable of the block. -/
theorem scoping_lexical_shadowing :
    ∃ turn : Turn Sink, Stmt.HaveTurn .top Environment.global shadowing
        (.between ∅ .unbounded #[]) turn ∧
      turn.interpreter.environment.IsLexical ∅ ⟨[declaration], [[declaration]]⟩ ∧
      (Access.write ⟨.identifier, "a", none, 1⟩ .nil).perform 1 turn.interpreter.environment =
        (Access.write ⟨.identifier, "a", none, 1⟩ .nil).actsOn 1 turn.interpreter.environment := by
  have hprogram : (ofTokens (Scan.ofString
      "var a = nil; \x7b var a = nil; a = nil; \x7d").tokens).statements = shadowing := by
    decide +kernel
  obtain ⟨-, hturns⟩ := scoping_lexical
    (Scan.ofString "var a = nil; \x7b var a = nil; a = nil; \x7d").tokens ∅ Sink.unbounded #[]
  rw [hprogram] at hturns
  have hturn : Stmt.HaveTurn .top Environment.global shadowing
      (.between ∅ Sink.unbounded #[]) _ := .later rfl (.here (.inside (.later rfl (.here .here))))
  obtain ⟨-, -, hlexical, haccess⟩ := hturns _ hturn
  exact ⟨_, hturn, hlexical _ .start, (haccess _ _ _ _ rfl rfl (.write rfl)).1⟩

end Program

end Lox
