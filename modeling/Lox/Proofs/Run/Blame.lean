import Mathlib.Tactic
import Lox.Proofs.Run.Lexical

set_option autoImplicit false

/-! # What a runtime error blames

Evaluation ends with a runtime error at one of the nodes of the expression (`Expr.Blames`). Either
this is a name that is bound in none of the visible scopes, in the environment as it was left
behind, or an operator on values of the wrong type. A run that ends with a runtime error has come to
a turn whose statement evaluates an expression that ends so (`Stmt.exists_raises`). Each node of
this expression is a node of the program (`Turn.Raises.nodes_subset`).
-/

namespace Lox

open Semantics Execution

/-! ## Nodes -/

/-- The nodes of an expression: itself and those of its parts. -/
def Expr.nodes : Expr → List Expr
  | literal v => [literal v]
  | grouping inner => grouping inner :: inner.nodes
  | unary operator operand => unary operator operand :: operand.nodes
  | binary left operator right => binary left operator right :: (left.nodes ++ right.nodes)
  | logical left operator right => logical left operator right :: (left.nodes ++ right.nodes)
  | var name => [var name]
  | assign name value => assign name value :: value.nodes

/-- The names in a node are names in the expression. -/
theorem Expr.names_subset {e node : Expr} (h : node ∈ e.nodes) : node.names ⊆ e.names := by
  induction e with
  | literal | var => exact List.mem_singleton.mp h ▸ List.Subset.refl _
  | grouping inner ih | unary operator inner ih =>
      rcases List.mem_cons.mp h with rfl | h
      · exact List.Subset.refl _
      · exact ih h
  | binary left operator right ihl ihr | logical left operator right ihl ihr =>
      rcases List.mem_cons.mp h with rfl | h
      · exact List.Subset.refl _
      · rcases List.mem_append.mp h with h | h
        · exact List.subset_append_of_subset_left _ (ihl h)
        · exact List.subset_append_of_subset_right _ (ihr h)
  | assign name value ih =>
      rcases List.mem_cons.mp h with rfl | h
      · exact List.Subset.refl _
      · exact List.subset_cons_of_subset _ (ih h)

namespace Stmt

mutual

/-- The nodes of the expressions in a statement. -/
def nodes : Stmt → List Expr
  | expression e | print e => e.nodes
  | declare _ initializer => initializer.elim [] Expr.nodes
  | block body => nodesAll body
  | ifThen condition thenBranch => condition.nodes ++ thenBranch.nodes
  | ifElse condition thenBranch elseBranch =>
    condition.nodes ++ (thenBranch.nodes ++ elseBranch.nodes)

/-- The nodes of the expressions in statements. -/
def nodesAll : List Stmt → List Expr
  | [] => []
  | s :: ss => s.nodes ++ nodesAll ss

end

mutual

/-- The names in a node are names in the statement. -/
theorem names_subset {st : Stmt} {node : Expr} (h : node ∈ st.nodes) : node.names ⊆ st.names := by
  cases st with
  | expression e | print e => exact Expr.names_subset h
  | declare name initializer =>
      cases initializer with
      | none => cases h
      | some e => exact List.subset_cons_of_subset _ (Expr.names_subset h)
  | block body => exact namesAll_subset h
  | ifThen c st =>
      rcases List.mem_append.mp h with h | h
      · exact List.subset_append_of_subset_left _ (Expr.names_subset h)
      · exact List.subset_append_of_subset_right _ (names_subset h)
  | ifElse c st st' =>
      rcases List.mem_append.mp h with h | h
      · exact List.subset_append_of_subset_left _ (Expr.names_subset h)
      · refine List.subset_append_of_subset_right _ ?_
        rcases List.mem_append.mp h with h | h
        · exact List.subset_append_of_subset_left _ (names_subset h)
        · exact List.subset_append_of_subset_right _ (names_subset h)

theorem namesAll_subset {ss : List Stmt} {node : Expr} (h : node ∈ nodesAll ss) :
    node.names ⊆ namesAll ss := by
  cases ss with
  | nil => cases h
  | cons st ss =>
      rcases List.mem_append.mp h with h | h
      · exact List.subset_append_of_subset_left _ (names_subset h)
      · exact List.subset_append_of_subset_right _ (namesAll_subset h)

end

/-- The nodes of the expression that a statement itself evaluates. -/
theorem nodes_subset_of_evaluated {st : Stmt} {e : Expr} (h : st.evaluated? = some e) :
    e.nodes ⊆ st.nodes := by
  cases st with
  | expression | print =>
      cases h
      exact List.Subset.refl _
  | declare name initializer =>
      obtain rfl : initializer = some e := h
      exact List.Subset.refl _
  | block => cases h
  | ifThen | ifElse =>
      cases h
      exact List.subset_append_left _ _

mutual

/-- The nodes of a statement are nodes of all that it stands in. -/
theorem Stands.nodes_subset {p q : Place} {st st' : Stmt} :
    Stands p st q (some st') → st'.nodes ⊆ st.nodes
  | .here => List.Subset.refl _
  | .inside h => h.nodes_subset
  | .thenBranch h => List.subset_append_of_subset_right _ h.nodes_subset
  | .firstBranch h =>
      List.subset_append_of_subset_right _ (List.subset_append_of_subset_left _ h.nodes_subset)
  | .secondBranch h =>
      List.subset_append_of_subset_right _ (List.subset_append_of_subset_right _ h.nodes_subset)

theorem StandAll.nodes_subset {p q : Place} {ss : List Stmt} {st' : Stmt} :
    StandAll p ss q (some st') → st'.nodes ⊆ nodesAll ss
  | .here h => List.subset_append_of_subset_left _ h.nodes_subset
  | .later h => List.subset_append_of_subset_right _ h.nodes_subset

end

end Stmt

/-! ## Operators that fail -/

namespace Token

variable {operator : Token} {v w : Value} {err : RuntimeError}

/-- The operators between two values that take numbers only, or numbers and texts. -/
def Kind.typed : List Kind :=
  [plus, minus, star, slash, greater, greaterEqual, less, lessEqual]

theorem applyUnary_fails (h : operator.applyUnary v = .error (.runtime err)) :
    operator.kind = .minus ∧ err.token = operator ∧ err.cause.isTypeError := by
  unfold applyUnary at h
  split at h
  · cases h
  · next hk _ =>
    cases h
    exact ⟨hk, rfl, rfl⟩
  · cases h
  · cases h

theorem applyPlus_fails (h : operator.applyPlus v w = .error (.runtime err)) :
    err.token = operator ∧ err.cause.isTypeError := by
  unfold applyPlus at h
  split at h
  · cases h
  · cases h
  · cases h
    exact ⟨rfl, rfl⟩

theorem applyNumeric_fails {cause : RuntimeError.Cause} {f : Float → Float → Value}
    (hcause : cause.isTypeError)
    (h : operator.applyNumeric cause f v w = .error (.runtime err)) :
    err.token = operator ∧ err.cause.isTypeError := by
  unfold applyNumeric at h
  split at h
  · cases h
  · cases h
    exact ⟨rfl, hcause⟩

theorem applyBinary_fails (h : operator.applyBinary v w = .error (.runtime err)) :
    operator.kind ∈ Kind.typed ∧ err.token = operator ∧ err.cause.isTypeError := by
  unfold applyBinary at h
  split at h
  case h_1 hk => exact ⟨by rw [hk]; decide, applyPlus_fails h⟩
  case h_2 hk | h_3 hk | h_4 hk | h_5 hk | h_6 hk | h_7 hk | h_8 hk =>
    exact ⟨by rw [hk]; decide, applyNumeric_fails rfl h⟩
  all_goals cases h

theorem decides_ne_runtime : operator.decides v ≠ .error (.runtime err) := by
  intro h
  unfold decides at h
  split at h <;> cases h

end Token

/-! ## Expressions that fail -/

namespace Environment

variable {env : Environment} {scope : Nat} {name : Token} {v : Value} {err : RuntimeError}

theorem get_fails (h : env.get scope name = .error err) :
    err = undefined name ∧ ∀ i ∈ env.chain scope, env.slot? i name.lexeme = none := by
  unfold get at h
  split at h
  · cases h
  · next hnone =>
    cases h
    exact ⟨rfl, List.findSome?_eq_none_iff.mp hnone⟩

theorem assign_fails (h : env.assign scope name v = .error err) :
    err = undefined name ∧ ∀ i ∈ env.chain scope, env.slot? i name.lexeme = none := by
  unfold assign at h
  split at h
  · cases h
  · next hnone =>
    cases h
    exact ⟨rfl, fun i hi => by simpa using List.find?_eq_none.mp hnone i hi⟩

end Environment

namespace Evaluation

variable {env env' : Environment} {scope : Nat} {name : Token} {v : Value} {err : RuntimeError}

theorem get_fails (h : get scope name env = .error (.runtime err) env') :
    err = Environment.undefined name ∧
      ∀ i ∈ env'.chain scope, env'.slot? i name.lexeme = none := by
  unfold get at h
  split at h
  · cases h
  · next hget =>
    cases h
    exact Environment.get_fails hget

theorem assign_fails (h : assign scope name v env = .error (.runtime err) env') :
    err = Environment.undefined name ∧
      ∀ i ∈ env'.chain scope, env'.slot? i name.lexeme = none := by
  unfold assign at h
  split at h
  · cases h
  · next hassign =>
    cases h
    exact Environment.assign_fails hassign

end Evaluation

/-- What is wrong at a node of the expression, so that its evaluation in the scope ended with the
error in the environment. -/
inductive Expr.Blames (scope : Nat) (env : Environment) (e : Expr) : RuntimeError → Prop
  | name {name : Token} {node : Expr} (hnode : node ∈ e.nodes)
      (hname : node = .var name ∨ ∃ value, node = .assign name value)
      (h : ∀ i ∈ env.chain scope, env.slot? i name.lexeme = none) :
      Blames scope env e (Environment.undefined name)
  | unary {operand : Expr} {err : RuntimeError} (hnode : .unary err.token operand ∈ e.nodes)
      (hk : err.token.kind = .minus) (h : err.cause.isTypeError) : Blames scope env e err
  | binary {left right : Expr} {err : RuntimeError}
      (hnode : .binary left err.token right ∈ e.nodes) (hk : err.token.kind ∈ Token.Kind.typed)
      (h : err.cause.isTypeError) : Blames scope env e err

namespace Expr

variable {scope : Nat} {env env' : Environment} {err : RuntimeError}

/-- What is wrong in a part is wrong in the whole. -/
theorem Blames.mono {part e : Expr} (h : part.Blames scope env err)
    (hsub : part.nodes ⊆ e.nodes) : e.Blames scope env err := by
  cases h with
  | name hnode hname h => exact .name (hsub hnode) hname h
  | unary hnode hk h => exact .unary (hsub hnode) hk h
  | binary hnode hk h => exact .binary (hsub hnode) hk h

/-- A failing evaluation blames a node of the expression. -/
theorem blames_of_evaluate {e : Expr}
    (h : e.evaluate scope env = .error (.runtime err) env') : e.Blames scope env' err := by
  induction e generalizing env with
  | literal v => cases h
  | grouping inner ih => exact (ih h).mono (List.subset_cons_self _ _)
  | unary operator operand ih =>
      rcases bind_ended (r := .error _) h with ⟨v, env₁, -, hop⟩ | ⟨f, hrun, hf⟩
      · rw [ofExcept_apply] at hop
        obtain ⟨hfails, rfl⟩ := ended_inj.mp hop
        obtain ⟨hk, rfl, hcause⟩ := Token.applyUnary_fails hfails
        exact .unary List.mem_cons_self hk hcause
      · cases hf
        exact (ih hrun).mono (List.subset_cons_self _ _)
  | binary left operator right ihl ihr =>
      have hleft : left.nodes ⊆ (binary left operator right).nodes :=
        List.subset_cons_of_subset _ (List.subset_append_left _ _)
      have hright : right.nodes ⊆ (binary left operator right).nodes :=
        List.subset_cons_of_subset _ (List.subset_append_right _ _)
      rcases bind_ended (r := .error _) h with ⟨v, env₁, -, h⟩ | ⟨f, hrun, hf⟩
      · rcases bind_ended (r := .error _) h with ⟨w, env₂, -, hop⟩ | ⟨f, hrun, hf⟩
        · rw [ofExcept_apply] at hop
          obtain ⟨hfails, rfl⟩ := ended_inj.mp hop
          obtain ⟨hk, rfl, hcause⟩ := Token.applyBinary_fails hfails
          exact .binary List.mem_cons_self hk hcause
        · cases hf
          exact (ihr hrun).mono hright
      · cases hf
        exact (ihl hrun).mono hleft
  | logical left operator right ihl ihr =>
      have hleft : left.nodes ⊆ (logical left operator right).nodes :=
        List.subset_cons_of_subset _ (List.subset_append_left _ _)
      have hright : right.nodes ⊆ (logical left operator right).nodes :=
        List.subset_cons_of_subset _ (List.subset_append_right _ _)
      rcases bind_ended (r := .error _) h with ⟨v, env₁, -, h⟩ | ⟨f, hrun, hf⟩
      · rcases bind_ended (r := .error _) h with ⟨decided, env₂, -, h⟩ | ⟨f, hop, hf⟩
        · cases decided with
          | true => cases h
          | false => exact (ihr h).mono hright
        · -- to decide needs no type
          cases hf
          rw [ofExcept_apply] at hop
          exact absurd (ended_eq_error.mp hop).1 Token.decides_ne_runtime
      · cases hf
        exact (ihl hrun).mono hleft
  | var name =>
      obtain ⟨rfl, hunbound⟩ := Evaluation.get_fails h
      exact .name List.mem_cons_self (.inl rfl) hunbound
  | assign name value ih =>
      rcases bind_ended (r := .error _) h with ⟨v, env₁, -, h⟩ | ⟨f, hrun, hf⟩
      · rcases bind_ended (r := .error _) h with ⟨_, env₂, -, h⟩ | ⟨f, hrun, hf⟩
        · cases h
        · cases hf
          obtain ⟨rfl, hunbound⟩ := Evaluation.assign_fails hrun
          exact .name List.mem_cons_self (.inr ⟨value, rfl⟩) hunbound
      · cases hf
        exact (ih hrun).mono (List.subset_cons_self _ _)

end Expr

/-! ## Statements that fail -/

variable {ω : Type}

/-- The statement of the turn evaluates the expression `e`, which ends with the error `err` in the
environment `env`. -/
structure Turn.Raises (turn : Turn ω) (err : RuntimeError) (e : Expr) (env : Environment) :
    Prop where
  evaluates : ∃ st, turn.statement = some st ∧ st.evaluated? = some e
  fails : e.evaluate turn.scope turn.interpreter.environment = .error (.runtime err) env

/-- The evaluation of a statement's expression fails as that of the expression does. -/
theorem evaluate_of_evaluation {e : Expr} {scope : Nat} {s t : Interpreter ω} {event : Event}
    {err : RuntimeError}
    (h : ofEvaluation (e.evaluate scope) (s.noted event) = .error (.runtime err) t) :
    e.evaluate scope s.environment = .error (.runtime err) t.environment := by
  unfold ofEvaluation at h
  split at h
  · cases h
  · next hrun =>
    cases h
    exact hrun

theorem ofWriting_ne_runtime {α : Type} {m : EStateM WriteError ω α} {s t : Interpreter ω}
    {err : RuntimeError} : ofWriting m s ≠ .error (.runtime err) t := by
  intro h
  unfold ofWriting at h
  split at h <;> cases h

variable [Writer ω]

namespace Stmt

/-- A statement whose own expression fails is the turn that raises the error. -/
theorem raises_here {p : Place} {scope : Nat} {st : Stmt} {e : Expr} {s t : Interpreter ω}
    {event : Event} {err : RuntimeError} (he : st.evaluated? = some e)
    (h : ofEvaluation (e.evaluate scope) (s.noted event) = .error (.runtime err) t) :
    ∃ turn e env, HasTurn p scope st s turn ∧ turn.Raises err e env :=
  ⟨_, e, t.environment, .here, ⟨st, rfl, he⟩, evaluate_of_evaluation h⟩

mutual

/-- A statement that ends with a runtime error comes to a turn that raises it. -/
theorem exists_raises (st : Stmt) {p : Place} {scope : Nat} {s t : Interpreter ω}
    {err : RuntimeError} (h : st.execute scope s = .error (.runtime err) t) :
    ∃ turn e env, HasTurn p scope st s turn ∧ turn.Raises err e env := by
  cases st with
  | expression e =>
      rw [execute_expression] at h
      rcases bind_ended (r := .error _) h with ⟨v, u, -, h⟩ | ⟨f, hrun, hf⟩
      · cases h
      · cases hf
        exact raises_here rfl hrun
  | print e =>
      rw [execute_print] at h
      rcases bind_ended (r := .error _) h with ⟨v, u, -, h⟩ | ⟨f, hrun, hf⟩
      · rcases bind_ended (r := .error _) h with ⟨_, u', -, h⟩ | ⟨f, hrun, hf⟩
        · exact absurd h ofWriting_ne_runtime
        · cases hf
          exact absurd hrun ofWriting_ne_runtime
      · cases hf
        exact raises_here rfl hrun
  | declare name initializer =>
      cases initializer with
      | none =>
          rw [execute_declare] at h
          cases h
      | some e =>
          rw [execute_declare_some] at h
          rcases bind_ended (r := .error _) h with ⟨v, u, -, h⟩ | ⟨f, hrun, hf⟩
          · cases h
          · cases hf
            exact raises_here rfl hrun
  | block body =>
      rw [execute_block] at h
      obtain ⟨u, hbody, -⟩ := inScope_ended (o := .runtime err) h
      obtain ⟨turn, e, env, hturn, hraises⟩ := exists_raisesAll body hbody
      exact ⟨turn, e, env, .inside hturn, hraises⟩
  | ifThen c st =>
      rw [execute_ifThen] at h
      rcases bind_ended (r := .error _) h with ⟨v, u, hc, h⟩ | ⟨f, hrun, hf⟩
      · split at h
        · next hv =>
          obtain ⟨turn, e, env, hturn, hraises⟩ := exists_raises st h
          exact ⟨turn, e, env, .thenBranch hc hv hturn, hraises⟩
        · cases h
      · cases hf
        exact raises_here rfl hrun
  | ifElse c st st' =>
      rw [execute_ifElse] at h
      rcases bind_ended (r := .error _) h with ⟨v, u, hc, h⟩ | ⟨f, hrun, hf⟩
      · split at h
        · next hv =>
          obtain ⟨turn, e, env, hturn, hraises⟩ := exists_raises st h
          exact ⟨turn, e, env, .firstBranch hc hv hturn, hraises⟩
        · next hv =>
          obtain ⟨turn, e, env, hturn, hraises⟩ := exists_raises st' h
          exact ⟨turn, e, env, .secondBranch hc (by simpa using hv) hturn, hraises⟩
      · cases hf
        exact raises_here rfl hrun

theorem exists_raisesAll (ss : List Stmt) {p : Place} {scope : Nat} {s t : Interpreter ω}
    {err : RuntimeError} (h : executeAll scope ss s = .error (.runtime err) t) :
    ∃ turn e env, HaveTurn p scope ss s turn ∧ turn.Raises err e env := by
  cases ss with
  | nil => cases h
  | cons st ss =>
      rw [executeAll_cons] at h
      rcases bind_ended (r := .error _) h with ⟨_, u, hst, h⟩ | ⟨f, hst, hf⟩
      · obtain ⟨turn, e, env, hturn, hraises⟩ := exists_raisesAll ss h
        exact ⟨turn, e, env, .later hst hturn, hraises⟩
      · cases hf
        obtain ⟨turn, e, env, hturn, hraises⟩ := exists_raises st hst
        exact ⟨turn, e, env, .here hturn, hraises⟩

end

end Stmt

namespace Turn

variable {turn : Turn ω} {err : RuntimeError} {e : Expr} {env : Environment}
  {globals : Std.ExtTreeMap String Value}

/-- The nodes of the expression that fails are nodes of the statements that have the turn. -/
theorem Raises.nodes_subset (h : turn.Raises err e env) {p : Place} {scope : Nat} {ss : List Stmt}
    {s : Interpreter ω} (hturn : Stmt.HaveTurn p scope ss s turn) :
    e.nodes ⊆ Stmt.nodesAll ss := by
  obtain ⟨st, hst, he⟩ := h.evaluates
  have hstands := hturn.stand
  rw [hst] at hstands
  exact List.Subset.trans (Stmt.nodes_subset_of_evaluated he) hstands.nodes_subset

/-- In a turn of a program, an error is raised with one scope for each block that is being executed
and the global one, and all of them are visible. -/
theorem Raises.chain_eq (h : turn.Raises err e env) (hbound : turn.IsBound globals) :
    env.scopes.size = turn.place.depth + 1 ∧
      env.chain turn.scope = (List.range env.scopes.size).reverse := by
  obtain ⟨st, hst, he⟩ := h.evaluates
  have hpasses : turn.Passes env := .evaluating hst he (.finish (r := .error err) h.fails)
  have hbinds := hbound.passes hpasses
  have hdepth := hbinds.depth_eq
  obtain ⟨ms, hrep, -⟩ := hbinds
  have hsize := hrep.size
  refine ⟨by omega, ?_⟩
  rw [hrep.stack.chain_eq (by omega), hsize]

/-- What is bound in no visible scope is bound in none at all. -/
theorem Raises.unbound (h : turn.Raises err e env) (hbound : turn.IsBound globals) {name : String}
    (hnone : ∀ i ∈ env.chain turn.scope, env.slot? i name = none) (i : Nat) :
    env.slot? i name = none := by
  by_cases hi : i < env.scopes.size
  · apply hnone
    rw [(h.chain_eq hbound).2]
    simpa using hi
  · rw [Environment.slot?, Array.getElem?_eq_none (Nat.not_lt.mp hi)]
    rfl

end Turn

end Lox
