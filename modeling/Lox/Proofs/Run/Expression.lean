import Mathlib.Tactic
import Lox.Evaluation
import Lox.Proofs.Run.Stack

set_option autoImplicit false

/-! # Evaluation follows the semantics

If a chain of maps represents an environment, then what comes of an expression on the maps is what
comes of evaluating it on the environment, and the maps represent the environment afterwards
(`Semantics.Evaluates.run`). Conversely, something comes of every expression on the maps unless the
evaluation comes upon a misfit operator, which an expression that fits does not have
(`Expr.evaluates_or_misfit`).
-/

namespace Lox

open Semantics

/-! ## Ends of runs -/

section Ends

variable {ε σ α β : Type}

/-- The end of a run that comes to `r` and leaves the state `s` behind. -/
def ended (r : Except ε α) (s : σ) : EStateM.Result ε σ α :=
  match r with
  | .ok a => .ok a s
  | .error e => .error e s

theorem ended_inj {r r' : Except ε α} {s s' : σ} : ended r s = ended r' s' ↔ r = r' ∧ s = s' := by
  cases r <;> cases r' <;> simp [ended]

theorem ended_eq_ok {r : Except ε α} {a : α} {s s' : σ} :
    ended r s = .ok a s' ↔ r = .ok a ∧ s = s' := by
  show ended r s = ended (.ok a) s' ↔ _
  exact ended_inj

theorem ended_eq_error {r : Except ε α} {e : ε} {s s' : σ} :
    ended r s = .error e s' ↔ r = .error e ∧ s = s' := by
  show ended r s = ended (.error e) s' ↔ _
  exact ended_inj

theorem ofExcept_apply (r : Except ε α) (s : σ) :
    (MonadExcept.ofExcept r : EStateM ε σ α) s = ended r s := by
  cases r <;> rfl

theorem bind_of_ok {x : EStateM ε σ α} {s s' : σ} {a : α} (h : x s = .ok a s')
    (k : α → EStateM ε σ β) : (x >>= k) s = k a s' := by
  show EStateM.bind x k s = _
  rw [EStateM.bind, h]

theorem bind_of_error {x : EStateM ε σ α} {s s' : σ} {e : ε} (h : x s = .error e s')
    (k : α → EStateM ε σ β) : (x >>= k) s = .error e s' := by
  show EStateM.bind x k s = _
  rw [EStateM.bind, h]

/-- A run of one computation after the other ends where the second does, or fails where the first
does. -/
theorem bind_ended {x : EStateM ε σ α} {k : α → EStateM ε σ β} {s t : σ} {r : Except ε β}
    (h : (x >>= k) s = ended r t) :
    (∃ a s', x s = .ok a s' ∧ k a s' = ended r t) ∨ ∃ e, x s = .error e t ∧ r = .error e := by
  cases hx : x s with
  | ok a s' =>
      rw [bind_of_ok hx] at h
      exact .inl ⟨a, s', rfl, h⟩
  | error e s' =>
      rw [bind_of_error hx] at h
      obtain ⟨hr, rfl⟩ := ended_eq_error.mp h.symm
      exact .inr ⟨e, rfl, hr⟩

end Ends

/-! ## Values -/

namespace Semantics

variable {operator : Token} {v w : Value} {r : Except RuntimeError Value}

theorem isTruthy_eq_false_iff : v.isTruthy = false ↔ Falsy v := by
  constructor
  · intro h
    match v, h with
    | .nil, _ => exact .nil
    | .boolean false, _ => exact .false
  · intro h
    cases h <;> rfl

theorem isTruthy_iff : v.isTruthy ↔ ¬Falsy v := by
  rw [← isTruthy_eq_false_iff, Bool.not_eq_false]

theorem isEqual_iff : v.isEqual w ↔ Same v w := by
  constructor
  · intro h
    unfold Value.isEqual at h
    split at h
    · exact .nil
    · obtain rfl := beq_iff_eq.mp h
      exact .boolean
    · exact .number h
    · obtain rfl := beq_iff_eq.mp h
      exact .string
    · cases h
  · intro h
    cases h with
    | nil => rfl
    | boolean => exact beq_self_eq_true _
    | number h => exact h
    | string => exact beq_self_eq_true _

theorem isEqual_eq_false_iff : v.isEqual w = false ↔ ¬Same v w := by
  rw [← isEqual_iff, Bool.not_eq_true]

/-! ## Operators -/

theorem Unary.run (h : Unary operator v r) : operator.applyUnary v = r.mapError .runtime := by
  cases h with
  | negate h => simp only [Token.applyUnary, h, Except.mapError]
  | negateOther h hv =>
      unfold Token.applyUnary
      split
      · next x _ => exact absurd rfl (hv x)
      · rfl
      · next hb => cases h.symm.trans hb
      · next hm _ _ => exact absurd h (by simpa using hm)
  | notFalsy h hv =>
      simp only [Token.applyUnary, h, Except.mapError, isTruthy_eq_false_iff.mpr hv, Bool.not_false]
  | notTruthy h hv =>
      simp only [Token.applyUnary, h, Except.mapError, isTruthy_iff.mpr hv, Bool.not_true]

theorem Numeric.run {f : Float → Float → Value} {cause : RuntimeError.Cause}
    (h : Numeric operator.kind f cause) :
    operator.applyBinary v w = operator.applyNumeric cause f v w := by
  generalize hk : operator.kind = k at h
  cases h <;> simp only [Token.applyBinary, hk, gt_iff_lt, ge_iff_le]

theorem Binary.run (h : Binary operator v w r) :
    operator.applyBinary v w = r.mapError .runtime := by
  cases h with
  | add h => simp only [Token.applyBinary, h, Token.applyPlus, Except.mapError]
  | join h => simp only [Token.applyBinary, h, Token.applyPlus, Except.mapError]
  | addOther h hn hs =>
      -- neither two numbers nor two strings, so the first two cases of the definition are excluded
      simp only [Token.applyBinary, h, Except.mapError]
      unfold Token.applyPlus
      split
      · next x y => exact absurd ⟨rfl, rfl⟩ (hn x y)
      · next s t => exact absurd ⟨rfl, rfl⟩ (hs s t)
      · rfl
  | numbers h => rw [h.run, Token.applyNumeric, Except.mapError]
  | others h hn =>
      rw [h.run]
      unfold Token.applyNumeric
      split
      · next x y => exact absurd ⟨rfl, rfl⟩ (hn x y)
      · rfl
  | equal h hvw =>
      rcases h with h | h <;>
        simp only [Token.applyBinary, h, Except.mapError, isEqual_iff.mpr hvw, Bool.not_true]
  | unequal h hvw =>
      rcases h with h | h <;>
        simp only [Token.applyBinary, h, Except.mapError, isEqual_eq_false_iff.mpr hvw,
          Bool.not_false]

theorem Decides.run {decided : Bool} (h : Decides operator v decided) (env : Environment) :
    (MonadExcept.ofExcept (operator.decides v) : Evaluation Bool) env = .ok decided env := by
  have hdecides : operator.decides v = .ok decided := by
    cases h with
    | andFalsy h hv => simp only [Token.decides, h, isTruthy_eq_false_iff.mpr hv, Bool.not_false]
    | andTruthy h hv => simp only [Token.decides, h, isTruthy_iff.mpr hv, Bool.not_true]
    | orFalsy h hv => simp only [Token.decides, h, isTruthy_eq_false_iff.mpr hv]
    | orTruthy h hv => simp only [Token.decides, h, isTruthy_iff.mpr hv]
  rw [ofExcept_apply, hdecides, ended]

/-- Every operator that stands before one operand comes to something on every value. -/
theorem exists_unary (h : operator.kind.isUnary) (v : Value) : ∃ r, Unary operator v r := by
  by_cases hminus : operator.kind = .minus
  · by_cases hv : ∃ x, v = .number x
    · obtain ⟨x, rfl⟩ := hv
      exact ⟨_, .negate hminus⟩
    · exact ⟨_, .negateOther hminus fun x hx => hv ⟨x, hx⟩⟩
  · have hbang : operator.kind = .bang := by
      revert h hminus
      cases operator.kind <;> simp [Token.Kind.isUnary]
    by_cases hv : Falsy v
    · exact ⟨_, .notFalsy hbang hv⟩
    · exact ⟨_, .notTruthy hbang hv⟩

theorem applyUnary_misfit (h : operator.kind.isUnary = false) (v : Value) :
    operator.applyUnary v = .error (.misfit operator) := by
  unfold Token.applyUnary
  cases hk : operator.kind <;> simp [hk, Token.Kind.isUnary] at h ⊢

/-- The operators between two operands: addition, the equalities, and those on numbers only. -/
theorem isBinary_cases {k : Token.Kind} (h : k.isBinary) :
    k = .plus ∨ (k = .bangEqual ∨ k = .equalEqual) ∨ ∃ f cause, Numeric k f cause := by
  cases k with
  | plus => exact .inl rfl
  | bangEqual => exact .inr (.inl (.inl rfl))
  | equalEqual => exact .inr (.inl (.inr rfl))
  | minus => exact .inr (.inr ⟨_, _, .subtract⟩)
  | star => exact .inr (.inr ⟨_, _, .multiply⟩)
  | slash => exact .inr (.inr ⟨_, _, .divide⟩)
  | greater => exact .inr (.inr ⟨_, _, .greater⟩)
  | greaterEqual => exact .inr (.inr ⟨_, _, .greaterEqual⟩)
  | less => exact .inr (.inr ⟨_, _, .less⟩)
  | lessEqual => exact .inr (.inr ⟨_, _, .lessEqual⟩)
  | _ => simp [Token.Kind.isBinary] at h

theorem exists_equality (h : operator.kind = .bangEqual ∨ operator.kind = .equalEqual)
    (v w : Value) : ∃ r, Binary operator v w r := by
  by_cases hvw : Same v w
  · exact ⟨_, .equal h hvw⟩
  · exact ⟨_, .unequal h hvw⟩

theorem exists_binary (h : operator.kind.isBinary) (v w : Value) : ∃ r, Binary operator v w r := by
  by_cases hn : ∃ x y, v = .number x ∧ w = .number y
  · obtain ⟨x, y, rfl, rfl⟩ := hn
    rcases isBinary_cases h with hplus | hequal | ⟨f, cause, hnum⟩
    · exact ⟨_, .add hplus⟩
    · exact exists_equality hequal _ _
    · exact ⟨_, .numbers hnum⟩
  · have hother : ∀ x y, ¬(v = .number x ∧ w = .number y) := fun x y hxy => hn ⟨x, y, hxy⟩
    rcases isBinary_cases h with hplus | hequal | ⟨f, cause, hnum⟩
    · by_cases hs : ∃ s t, v = .string s ∧ w = .string t
      · obtain ⟨s, t, rfl, rfl⟩ := hs
        exact ⟨_, .join hplus⟩
      · exact ⟨_, .addOther hplus hother fun s t hst => hs ⟨s, t, hst⟩⟩
    · exact exists_equality hequal _ _
    · exact ⟨_, .others hnum hother⟩

theorem applyBinary_misfit (h : operator.kind.isBinary = false) (v w : Value) :
    operator.applyBinary v w = .error (.misfit operator) := by
  unfold Token.applyBinary
  cases hk : operator.kind <;> simp [hk, Token.Kind.isBinary] at h ⊢

theorem exists_decides (h : operator.kind.isLogical) (v : Value) :
    ∃ decided, Decides operator v decided := by
  by_cases hand : operator.kind = .kwAnd
  · by_cases hv : Falsy v
    · exact ⟨_, .andFalsy hand hv⟩
    · exact ⟨_, .andTruthy hand hv⟩
  · have hor : operator.kind = .kwOr := by
      revert h hand
      cases operator.kind <;> simp [Token.Kind.isLogical]
    by_cases hv : Falsy v
    · exact ⟨_, .orFalsy hor hv⟩
    · exact ⟨_, .orTruthy hor hv⟩

theorem decides_misfit (h : operator.kind.isLogical = false) (v : Value) :
    operator.decides v = .error (.misfit operator) := by
  unfold Token.decides
  cases hk : operator.kind <;> simp [hk, Token.Kind.isLogical] at h ⊢

/-! ## Expressions -/

/-- What comes of an expression on maps that represent an environment is what evaluating it there
comes to, and the maps represent the environment that is left behind. -/
theorem Evaluates.run {e : Expr} {ms ms' : Frames} (h : Evaluates e ms r ms')
    {scope : Nat} {env : Environment} (hrep : env.Represents scope ms) :
    ∃ env', e.evaluate scope env = ended (r.mapError .runtime) env' ∧
      env'.Represents scope ms' := by
  -- along the derivation; each operand starts on the environment that the one before it left
  induction h generalizing env with
  | literal => exact ⟨env, rfl, hrep⟩
  | grouping _ ih => exact ih hrep
  | @unary operator e v r _ _ _ hr ih =>
      obtain ⟨env', he, hrep'⟩ := ih hrep
      refine ⟨env', ?_, hrep'⟩
      show (e.evaluate scope >>= fun v => MonadExcept.ofExcept (operator.applyUnary v)) env = _
      rw [bind_of_ok he, ofExcept_apply, hr.run]
  | @unaryFails operator e f _ _ _ ih =>
      obtain ⟨env', he, hrep'⟩ := ih hrep
      exact ⟨env', bind_of_error he _, hrep'⟩
  | @binary operator a b v w r _ _ _ _ _ hr iha ihb =>
      obtain ⟨env₁, ha, hrep₁⟩ := iha hrep
      obtain ⟨env₂, hb, hrep₂⟩ := ihb hrep₁
      refine ⟨env₂, ?_, hrep₂⟩
      show (a.evaluate scope >>= fun v => b.evaluate scope >>= fun w =>
        MonadExcept.ofExcept (operator.applyBinary v w)) env = _
      rw [bind_of_ok ha, bind_of_ok hb, ofExcept_apply, hr.run]
  | @binaryLeftFails operator a b f _ _ _ ih =>
      obtain ⟨env', ha, hrep'⟩ := ih hrep
      exact ⟨env', bind_of_error ha _, hrep'⟩
  | @binaryRightFails operator a b v f _ _ _ _ _ iha ihb =>
      obtain ⟨env₁, ha, hrep₁⟩ := iha hrep
      obtain ⟨env₂, hb, hrep₂⟩ := ihb hrep₁
      exact ⟨env₂, (bind_of_ok ha _).trans (bind_of_error hb _), hrep₂⟩
  | @logicalDecided operator a b v _ _ _ hd ih =>
      obtain ⟨env', ha, hrep'⟩ := ih hrep
      exact ⟨env', (bind_of_ok ha _).trans (bind_of_ok (hd.run env') _), hrep'⟩
  | @logicalOpen operator a b v r _ _ _ _ hd _ iha ihb =>
      obtain ⟨env₁, ha, hrep₁⟩ := iha hrep
      obtain ⟨env₂, hb, hrep₂⟩ := ihb hrep₁
      exact ⟨env₂, (bind_of_ok ha _).trans ((bind_of_ok (hd.run env₁) _).trans hb), hrep₂⟩
  | @logicalFails operator a b f _ _ _ ih =>
      obtain ⟨env', ha, hrep'⟩ := ih hrep
      exact ⟨env', bind_of_error ha _, hrep'⟩
  | @var name v ms h =>
      refine ⟨env, ?_, hrep⟩
      have hget := hrep.get name
      rw [h] at hget
      show Evaluation.get scope name env = _
      rw [Evaluation.get, hget]
      rfl
  | @varUnbound name ms h =>
      refine ⟨env, ?_, hrep⟩
      have hget := hrep.get name
      rw [h] at hget
      show Evaluation.get scope name env = _
      rw [Evaluation.get, hget]
      rfl
  | @assign name e v ms ms' ms'' _ ha ih =>
      obtain ⟨env₁, he, hrep₁⟩ := ih hrep
      have hassign := hrep₁.assign name v
      rw [ha] at hassign
      obtain ⟨env₂, hassign, hrep₂⟩ := hassign
      refine ⟨env₂, ?_, hrep₂⟩
      have hrun : Evaluation.assign scope name v env₁ = .ok () env₂ := by
        rw [Evaluation.assign, hassign]
      exact (bind_of_ok he _).trans (bind_of_ok hrun _)
  | @assignUnbound name e v ms ms' _ ha ih =>
      obtain ⟨env₁, he, hrep₁⟩ := ih hrep
      have hassign := hrep₁.assign name v
      rw [ha] at hassign
      refine ⟨env₁, ?_, hrep₁⟩
      have hrun : Evaluation.assign scope name v env₁ = .error (.runtime (unbound name)) env₁ := by
        rw [Evaluation.assign, hassign]
        rfl
      exact (bind_of_ok he _).trans (bind_of_error hrun _)
  | @assignFails name e f _ _ _ ih =>
      obtain ⟨env', he, hrep'⟩ := ih hrep
      exact ⟨env', bind_of_error he _, hrep'⟩

end Semantics

/-- Something comes of every expression on the maps, unless its evaluation comes upon an operator
that does not belong in its node. -/
theorem Expr.evaluates_or_misfit (e : Expr) {scope : Nat} {env : Environment} {ms : Frames}
    (hrep : env.Represents scope ms) :
    (∃ r ms', Evaluates e ms r ms') ∨
      ¬e.Fits ∧ ∃ operator env', e.evaluate scope env = .error (.misfit operator) env' := by
  -- along the tree: the right operand is evaluated on what is left after the left one, which
  -- `Evaluates.run` provides
  induction e generalizing env ms with
  | literal v => exact .inl ⟨_, _, .literal⟩
  | grouping inner ih =>
      rcases ih hrep with ⟨r, ms', h⟩ | hmisfit
      · exact .inl ⟨r, ms', .grouping h⟩
      · exact .inr hmisfit
  | unary operator operand ih =>
      rcases ih hrep with ⟨f | v, ms', h⟩ | ⟨hfits, m, env', hrun⟩
      · exact .inl ⟨_, _, .unaryFails h⟩
      · obtain ⟨env', hrun, -⟩ := h.run hrep
        by_cases hk : operator.kind.isUnary
        · obtain ⟨r, hr⟩ := exists_unary hk v
          exact .inl ⟨_, _, .unary h hr⟩
        · refine .inr ⟨fun hfits => hk hfits.1, operator, env', ?_⟩
          show (operand.evaluate scope >>= fun v =>
            MonadExcept.ofExcept (operator.applyUnary v)) env = _
          rw [bind_of_ok hrun, ofExcept_apply, applyUnary_misfit (by simpa using hk), ended]
      · exact .inr ⟨fun h => hfits h.2, m, env', bind_of_error hrun _⟩
  | binary left operator right ihl ihr =>
      rcases ihl hrep with ⟨f | v, ms₁, hl⟩ | ⟨hfits, m, env', hrun⟩
      · exact .inl ⟨_, _, .binaryLeftFails hl⟩
      · obtain ⟨env₁, hrunl, hrep₁⟩ := hl.run hrep
        rcases ihr hrep₁ with ⟨f | w, ms₂, hr⟩ | ⟨hfits, m, env', hrun⟩
        · exact .inl ⟨_, _, .binaryRightFails hl hr⟩
        · obtain ⟨env₂, hrunr, -⟩ := hr.run hrep₁
          by_cases hk : operator.kind.isBinary
          · obtain ⟨r, hb⟩ := exists_binary hk v w
            exact .inl ⟨_, _, .binary hl hr hb⟩
          · refine .inr ⟨fun hfits => hk hfits.1, operator, env₂, ?_⟩
            show (left.evaluate scope >>= fun v => right.evaluate scope >>= fun w =>
              MonadExcept.ofExcept (operator.applyBinary v w)) env = _
            rw [bind_of_ok hrunl, bind_of_ok hrunr, ofExcept_apply,
              applyBinary_misfit (by simpa using hk), ended]
        · refine .inr ⟨fun h => hfits h.2.2, m, env', ?_⟩
          exact (bind_of_ok hrunl _).trans (bind_of_error hrun _)
      · exact .inr ⟨fun h => hfits h.2.1, m, env', bind_of_error hrun _⟩
  | logical left operator right ihl ihr =>
      rcases ihl hrep with ⟨f | v, ms₁, hl⟩ | ⟨hfits, m, env', hrun⟩
      · exact .inl ⟨_, _, .logicalFails hl⟩
      · obtain ⟨env₁, hrunl, hrep₁⟩ := hl.run hrep
        by_cases hk : operator.kind.isLogical
        · obtain ⟨decided, hd⟩ := exists_decides hk v
          cases decided with
          | true => exact .inl ⟨_, _, .logicalDecided hl hd⟩
          | false =>
              rcases ihr hrep₁ with ⟨r, ms₂, hr⟩ | ⟨hfits, m, env', hrun⟩
              · exact .inl ⟨_, _, .logicalOpen hl hd hr⟩
              · refine .inr ⟨fun h => hfits h.2.2, m, env', ?_⟩
                exact (bind_of_ok hrunl _).trans ((bind_of_ok (hd.run env₁) _).trans hrun)
        · refine .inr ⟨fun hfits => hk hfits.1, operator, env₁, ?_⟩
          have hdecides : (MonadExcept.ofExcept (operator.decides v) : Evaluation Bool) env₁ =
              .error (.misfit operator) env₁ := by
            rw [ofExcept_apply, decides_misfit (by simpa using hk), ended]
          exact (bind_of_ok hrunl _).trans (bind_of_error hdecides _)
      · exact .inr ⟨fun h => hfits h.2.1, m, env', bind_of_error hrun _⟩
  | var name =>
      cases hget : ms.get? name.lexeme with
      | some v => exact .inl ⟨_, _, .var hget⟩
      | none => exact .inl ⟨_, _, .varUnbound hget⟩
  | assign name value ih =>
      rcases ih hrep with ⟨f | v, ms', h⟩ | ⟨hfits, m, env', hrun⟩
      · exact .inl ⟨_, _, .assignFails h⟩
      · cases hassign : ms'.assign? name.lexeme v with
        | some ms'' => exact .inl ⟨_, _, .assign h hassign⟩
        | none => exact .inl ⟨_, _, .assignUnbound h hassign⟩
      · exact .inr ⟨hfits, m, env', bind_of_error hrun _⟩

end Lox
