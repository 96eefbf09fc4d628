import Mathlib.Tactic
import Lox.Proofs.Run.Chain
import Lox.Proofs.Run.Scopes

set_option autoImplicit false

/-! # What a run leaves as it is

An expression gives other values to variables, by the assignments in it, and that is all it does:
it binds no name, opens no scope and writes nothing (`Environment.Reassigns`). A statement may bind
names in the scope it stands in. In the scopes further out it only gives other values to variables
whose names are assigned to in it, and what it writes comes behind what was written before
(`Interpreter.Frame`). A block leaves the scope it stands in as it does those further out, because
the scope of its own is gone (`Interpreter.frame_of_moment`).

Both hold however the evaluation or execution ends.
-/

namespace Lox

open Semantics Execution

variable {ω : Type}

/-! ## Names that are assigned to -/

/-- The names that are assigned to in an expression. -/
def Expr.targets : Expr → List String
  | literal _ | var _ => []
  | grouping inner => inner.targets
  | unary _ operand => operand.targets
  | binary left _ right | logical left _ right => left.targets ++ right.targets
  | assign name value => name.lexeme :: value.targets

namespace Stmt

mutual

/-- The names that are assigned to in a statement. A declaration is no assignment. -/
def targets : Stmt → List String
  | expression e | print e => e.targets
  | declare _ initializer => initializer.elim [] Expr.targets
  | block body => targetsAll body
  | ifThen condition thenBranch => condition.targets ++ thenBranch.targets
  | ifElse condition thenBranch elseBranch =>
    condition.targets ++ (thenBranch.targets ++ elseBranch.targets)

/-- The names that are assigned to in statements. -/
def targetsAll : List Stmt → List String
  | [] => []
  | s :: ss => s.targets ++ targetsAll ss

end

end Stmt

/-! ## Evaluation -/

namespace Environment

/-- The same scopes are open, enclosed as before, and each binds the same names. -/
structure SameNames (env env' : Environment) : Prop where
  size : env'.scopes.size = env.scopes.size
  outer : ∀ i, env'.outer? i = env.outer? i
  bound : ∀ i x, (env'.slot? i x).isSome = (env.slot? i x).isSome

/-- The environments differ in the values of variables only, and only in those that some of the
names stand for in the scope `scope`. -/
structure Reassigns (scope : Nat) (names : List String) (env env' : Environment) : Prop
    extends SameNames env env' where
  changed : ∀ i x, env'.slot? i x ≠ env.slot? i x → x ∈ names ∧ env.Nearest x scope i

namespace Reassigns

variable {scope : Nat} {names names' : List String} {env env₁ env' : Environment}

theorem refl (scope : Nat) (names : List String) (env : Environment) :
    Reassigns scope names env env where
  size := rfl
  outer _ := rfl
  bound _ _ := rfl
  changed _ _ hne := absurd rfl hne

theorem mono (h : Reassigns scope names env env') (hs : names ⊆ names') :
    Reassigns scope names' env env' where
  toSameNames := h.toSameNames
  changed i x hne := ⟨hs (h.changed i x hne).1, (h.changed i x hne).2⟩

theorem trans (h : Reassigns scope names env env₁) (h' : Reassigns scope names env₁ env') :
    Reassigns scope names env env' where
  size := h'.size.trans h.size
  outer i := (h'.outer i).trans (h.outer i)
  bound i x := (h'.bound i x).trans (h.bound i x)
  changed i x hne := by
    by_cases heq : env₁.slot? i x = env.slot? i x
    · obtain ⟨hx, hnearest⟩ := h'.changed i x (by rwa [heq])
      -- what a name stands for has not changed in between
      exact ⟨hx, hnearest.congr (fun j => (h.outer j).symm) fun j => (h.bound j x).symm⟩
    · exact h.changed i x heq

/-- One evaluation after the other. -/
theorem bind {α β : Type} {m : Evaluation α} {k : α → Evaluation β} {r : Except Failure β}
    (h : (m >>= k) env = ended r env')
    (hm : ∀ r' env₁, m env = ended r' env₁ → Reassigns scope names env env₁)
    (hk : ∀ a env₁, k a env₁ = ended r env' → Reassigns scope names env₁ env') :
    Reassigns scope names env env' := by
  rcases bind_ended h with ⟨a, env₁, hrun, hrest⟩ | ⟨f, hrun, -⟩
  · exact (hm (.ok a) env₁ hrun).trans (hk a env₁ hrest)
  · exact hm (.error f) env' hrun

/-- What does not look at the environment leaves it as it is. -/
theorem ofExcept {α : Type} {r r' : Except Failure α}
    (h : (MonadExcept.ofExcept r' : Evaluation α) env = ended r env') :
    Reassigns scope names env env' := by
  rw [ofExcept_apply] at h
  obtain ⟨-, rfl⟩ := ended_inj.mp h
  exact .refl scope names env

theorem get {name : Token} {r : Except Failure Value}
    (h : Evaluation.get scope name env = ended r env') : Reassigns scope names env env' := by
  unfold Evaluation.get at h
  split at h
  · obtain ⟨-, rfl⟩ := ended_eq_ok.mp h.symm
    exact .refl scope names env'
  · obtain ⟨-, rfl⟩ := ended_eq_error.mp h.symm
    exact .refl scope names env'

theorem assign {name : Token} {value : Value} {r : Except Failure Unit}
    (h : Evaluation.assign scope name value env = ended r env') :
    Reassigns scope [name.lexeme] env env' := by
  by_cases hbound : ∃ n, env.Nearest name.lexeme scope n
  · obtain ⟨n, hn⟩ := hbound
    have hsets := sets_define (lt_of_isSome hn.isSome) name.lexeme value
    rw [Evaluation.assign, hn.assign_eq] at h
    obtain ⟨-, rfl⟩ := ended_eq_ok.mp h.symm
    refine ⟨⟨hsets.size, hsets.outer, hsets.isSome_eq hn.isSome⟩, fun i x hne => ?_⟩
    by_cases hboth : i = n ∧ x = name.lexeme
    · obtain ⟨rfl, rfl⟩ := hboth
      exact ⟨List.mem_singleton_self _, hn⟩
    · exact absurd (hsets.others i x hboth) hne
  · rw [Evaluation.assign, assign_of_unbound hbound] at h
    obtain ⟨-, rfl⟩ := ended_eq_error.mp h.symm
    exact .refl scope _ env'

end Reassigns

end Environment

open Environment (Reassigns)

/-- All that evaluating an expression can do to an environment, whatever comes of it. -/
theorem Expr.reassigns (e : Expr) {scope : Nat} {env env' : Environment} {r : Except Failure Value}
    (h : e.evaluate scope env = ended r env') : Reassigns scope e.targets env env' := by
  induction e generalizing env env' r with
  | literal v =>
      obtain ⟨-, rfl⟩ := ended_eq_ok.mp h.symm
      exact .refl scope _ env'
  | grouping inner ih => exact ih h
  | unary operator operand ih =>
      exact .bind h (fun _ _ hrun => ih hrun) fun _ _ hop => .ofExcept hop
  | binary left operator right ihl ihr =>
      refine .bind h (fun _ _ hrun => (ihl hrun).mono (List.subset_append_left ..)) ?_
      intro v env₁ h₁
      exact .bind h₁ (fun _ _ hrun => (ihr hrun).mono (List.subset_append_right ..))
        fun _ _ hop => .ofExcept hop
  | logical left operator right ihl ihr =>
      refine .bind h (fun _ _ hrun => (ihl hrun).mono (List.subset_append_left ..)) ?_
      intro v env₁ h₁
      refine .bind h₁ (fun _ _ hop => .ofExcept hop) fun decided env₂ h₂ => ?_
      cases decided with
      | true =>
          obtain ⟨-, rfl⟩ := ended_eq_ok.mp h₂.symm
          exact .refl scope _ env'
      | false => exact (ihr h₂).mono (List.subset_append_right ..)
  | var name => exact .get h
  | assign name value ih =>
      refine .bind h (fun _ _ hrun => (ih hrun).mono (List.subset_cons_self ..)) fun v env₁ h₁ => ?_
      refine .bind h₁ (fun _ _ hrun => (Reassigns.assign hrun).mono ?_) fun _ env₂ h₂ => ?_
      · exact List.cons_subset_cons _ (List.nil_subset _)
      · obtain ⟨-, rfl⟩ := ended_eq_ok.mp h₂.symm
        exact .refl scope _ env'

/-! ## Writing -/

/-- `Takes sink bytes sink'`: by a series of writes the sink `sink` becomes `sink'`, and it takes
the bytes in this order. -/
inductive Writer.Takes [Writer ω] : ω → List UInt8 → ω → Prop
  | nothing {sink : ω} : Takes sink [] sink
  | took {sink sink₁ sink' : ω} {offered bytes : List UInt8} {n : Nat}
      (h : Writer.write offered sink = (.took n, sink₁)) (hs : Takes sink₁ bytes sink') :
      Takes sink (offered.take n ++ bytes) sink'
  | refused {sink sink₁ sink' : ω} {offered bytes : List UInt8} {reason : String}
      (h : Writer.write offered sink = (.refused reason, sink₁)) (hs : Takes sink₁ bytes sink') :
      Takes sink bytes sink'

namespace Writer.Takes

theorem trans [Writer ω] {sink sink₁ sink' : ω} {bytes bytes' : List UInt8}
    (h : Takes sink bytes sink₁) (h' : Takes sink₁ bytes' sink') :
    Takes sink (bytes ++ bytes') sink' := by
  induction h with
  | nothing => exact h'
  | took h _ ih =>
      rw [List.append_assoc]
      exact .took h (ih h')
  | refused h _ ih => exact .refused h (ih h')

/-- A sink in memory holds what it held before and then what it has taken. -/
theorem written_eq {sink sink' : Sink} {bytes : List UInt8} (h : Takes sink bytes sink') :
    sink'.written.toList = sink.written.toList ++ bytes := by
  induction h with
  | nothing => rw [List.append_nil]
  | @took sink _ _ offered bytes n h _ ih =>
      simp only [Writer.write] at h
      split at h
      · cases h
      · cases h
        rw [ih, List.take_zero, List.nil_append]
      · cases h
        rw [ih]
        simp
  | @refused sink _ _ offered bytes reason h _ ih =>
      simp only [Writer.write] at h
      split at h
      · cases h
        exact ih
      · cases h
      · cases h

end Writer.Takes

/-- Whatever comes of writing, the sink has taken some bytes. -/
theorem Semantics.Writes.takes [Writer ω] {bytes : List UInt8} {sink sink' : ω}
    {r : Except WriteError Unit} (h : Writes bytes sink r sink') :
    ∃ taken, Writer.Takes sink taken sink' := by
  induction h with
  | nothing => exact ⟨_, .nothing⟩
  | some _ h _ _ ih =>
      obtain ⟨taken, htaken⟩ := ih
      exact ⟨_, .took h htaken⟩
  | stalled _ h => exact ⟨_, .took h .nothing⟩
  | refused _ h => exact ⟨_, .refused h .nothing⟩

/-! ## Execution -/

namespace Interpreter

variable [Writer ω]

/-- The interpreters have the same scopes. In the first `n` of them the same names are bound, and
only variables of the names have other values. The output is the one before, with more behind it. -/
structure Frame (n : Nat) (names : List String) (s t : Interpreter ω) : Prop where
  size : t.environment.scopes.size = s.environment.scopes.size
  outer : ∀ i, t.environment.outer? i = s.environment.outer? i
  bound : ∀ i < n, ∀ x, (t.environment.slot? i x).isSome = (s.environment.slot? i x).isSome
  changed : ∀ i < n, ∀ x, t.environment.slot? i x ≠ s.environment.slot? i x → x ∈ names
  output : ∃ bytes, Writer.Takes s.output bytes t.output

namespace Frame

variable {n k scope : Nat} {names names' : List String} {s t u : Interpreter ω}

/-- What leaves the environment and the sink alone. -/
theorem of_eq (henvironment : t.environment = s.environment) (houtput : t.output = s.output) :
    Frame n names s t where
  size := by rw [henvironment]
  outer _ := by rw [henvironment]
  bound _ _ _ := by rw [henvironment]
  changed _ _ _ hne := absurd (by rw [henvironment]) hne
  output := ⟨[], by rw [houtput]; exact .nothing⟩

theorem mono (h : Frame n names s t) (hk : k ≤ n) (hs : names ⊆ names') : Frame k names' s t where
  size := h.size
  outer := h.outer
  bound i hi := h.bound i (by omega)
  changed i hi x hne := hs (h.changed i (by omega) x hne)
  output := h.output

theorem trans (h : Frame n names s t) (h' : Frame n names t u) : Frame n names s u where
  size := h'.size.trans h.size
  outer i := (h'.outer i).trans (h.outer i)
  bound i hi x := (h'.bound i hi x).trans (h.bound i hi x)
  changed i hi x hne := by
    by_cases heq : t.environment.slot? i x = s.environment.slot? i x
    · exact h'.changed i hi x (by rwa [heq])
    · exact h.changed i hi x heq
  output := by
    obtain ⟨bytes, hbytes⟩ := h.output
    obtain ⟨bytes', hbytes'⟩ := h'.output
    exact ⟨_, hbytes.trans hbytes'⟩

/-- A computation and what goes on after it. -/
theorem bind {α β : Type} {m : Execution ω α} {k : α → Execution ω β} {r : Except Failure β}
    (h : (m >>= k) s = ended r t) (hm : ∀ r' u, m s = ended r' u → Frame n names s u)
    (hk : ∀ a u, m s = .ok a u → k a u = ended r t → Frame n names u t) : Frame n names s t := by
  rcases bind_ended h with ⟨a, u, hrun, hrest⟩ | ⟨f, hrun, -⟩
  · exact (hm (.ok a) u hrun).trans (hk a u hrun hrest)
  · exact hm (.error f) t hrun

theorem executing (form : Stmt.Form) : Frame n names s (s.noted (.executing form)) :=
  of_eq rfl rfl

/-- Evaluating an expression leaves the names that are bound and the sink alone. -/
theorem evaluation {e : Expr} (hs : e.targets ⊆ names) (r : Except Failure Value)
    (u : Interpreter ω) (h : ofEvaluation (e.evaluate scope) s = ended r u) :
    Frame n names s u := by
  have hframe : ∀ (r' : Except Failure Value) {env : Environment},
      e.evaluate scope s.environment = ended r' env →
      Frame n names s { s with environment := env } := by
    intro r' env hrun
    have hreassigns := e.reassigns hrun
    exact ⟨hreassigns.size, hreassigns.outer, fun i _ => hreassigns.bound i,
      fun i _ x hne => hs (hreassigns.changed i x hne).1, [], .nothing⟩
  unfold ofEvaluation at h
  split at h
  · next hrun =>
    obtain ⟨-, rfl⟩ := ended_eq_ok.mp h.symm
    exact hframe (.ok _) hrun
  · next hrun =>
    obtain ⟨-, rfl⟩ := ended_eq_error.mp h.symm
    exact hframe (.error _) hrun

/-- Writing leaves the environment alone. -/
theorem writing {text : String} (r : Except Failure Unit) (u : Interpreter ω)
    (h : ofWriting (Writer.writeText text) s = ended r u) : Frame n names s u := by
  obtain ⟨r', sink, hw⟩ := exists_writes (bytesOf text) s.output
  have hrun : Writer.writeText text s.output = ended r' sink := hw.run
  obtain ⟨taken, htaken⟩ := hw.takes
  have hu : u = { s with output := sink } := by
    rw [ofWriting, hrun] at h
    cases r' with
    | ok => exact (ended_eq_ok.mp h.symm).2
    | error => exact (ended_eq_error.mp h.symm).2
  subst hu
  exact ⟨rfl, fun _ => rfl, fun _ _ _ => rfl, fun _ _ _ hne => absurd rfl hne, taken, htaken⟩

/-- A declaration binds its name in the scope it stands in. -/
theorem declaring (hscope : scope < s.environment.scopes.size) {name : Token} {v : Value}
    {r : Except Failure Unit} (h : Stmt.bindName scope name v s = ended r t) :
    Frame scope names s t := by
  obtain ⟨-, rfl⟩ := ended_eq_ok.mp h.symm
  have hsets := Environment.sets_define hscope name.lexeme v
  have hslot : ∀ i < scope, ∀ x,
      (s.environment.define scope name.lexeme v).slot? i x = s.environment.slot? i x :=
    fun i hi x => hsets.others i x fun hboth => absurd hboth.1 (by omega)
  refine ⟨hsets.size, hsets.outer, fun i hi x => ?_, fun i hi x hne => ?_, [], .nothing⟩
  · exact congrArg Option.isSome (hslot i hi x)
  · exact absurd (hslot i hi x) hne

/-- What the statements of a block leave alone in the scopes around it, all of which are there
before and after, the block does. -/
theorem block (h : Frame s.environment.scopes.size names (s.entered scope) u) :
    Frame s.environment.scopes.size names s (u.exited s.environment.scopes.size) := by
  have hopened : (s.entered scope).environment.scopes.size = s.environment.scopes.size + 1 := by
    simp [Interpreter.entered, Environment.openScope]
  have hsize : (u.exited s.environment.scopes.size).environment.scopes.size =
      s.environment.scopes.size := by
    have hpos := s.environment.nonempty
    have husize : u.environment.scopes.size = s.environment.scopes.size + 1 := h.size.trans hopened
    simp only [Interpreter.exited, Environment.closeScope, Array.take_eq_extract,
      Array.size_extract]
    omega
  have hbefore : ∀ i < s.environment.scopes.size,
      (s.entered scope).environment.scopes[i]? = s.environment.scopes[i]? :=
    fun i hi => s.environment.getElem?_openScope scope hi
  have hafter : ∀ i < s.environment.scopes.size,
      (u.exited s.environment.scopes.size).environment.scopes[i]? = u.environment.scopes[i]? :=
    fun i hi => u.environment.getElem?_closeScope hi
  refine ⟨hsize, fun i => ?_, fun i hi x => ?_, fun i hi x hne => ?_, h.output⟩
  · by_cases hi : i < s.environment.scopes.size
    · have houter := h.outer i
      rw [Environment.outer?, Environment.outer?, hbefore i hi] at houter
      rw [Environment.outer?, Environment.outer?, hafter i hi, houter]
    · rw [Environment.outer?, Environment.outer?, Array.getElem?_eq_none (by omega),
        Array.getElem?_eq_none (by omega)]
  · have hbound := h.bound i hi x
    rw [Environment.slot?, Environment.slot?, hbefore i hi] at hbound
    rw [Environment.slot?, Environment.slot?, hafter i hi, hbound]
  · refine h.changed i hi x fun heq => hne ?_
    rw [Environment.slot?, Environment.slot?, hbefore i hi] at heq
    rw [Environment.slot?, Environment.slot?, hafter i hi, heq]

end Frame

end Interpreter

namespace Stmt

open Interpreter

variable [Writer ω]

/-- What the body of a block does to the scopes around, the block does. -/
theorem frame_of_body {body : List Stmt} {s t : Interpreter ω} {scope : Nat} {o : Outcome}
    (hall : ∀ {s u : Interpreter ω} {scope : Nat}, scope < s.environment.scopes.size →
      executeAll scope body s = ended o.result u → Frame scope (targetsAll body) s u)
    (h : (block body).execute scope s = ended o.result t) :
    Frame s.environment.scopes.size (targetsAll body) s t := by
  rw [execute_block] at h
  obtain ⟨u, hbody, rfl⟩ := inScope_ended h
  have hinside : Frame (s.noted (.executing .block)).environment.scopes.size (targetsAll body)
      ((s.noted (.executing .block)).entered scope) u :=
    hall (by simp [Interpreter.entered, Environment.openScope]) hbody
  exact (Frame.executing .block).trans hinside.block

mutual

/-- All that executing a statement can do in the scopes around the one that it stands in. -/
theorem frame_of_execute (st : Stmt) {s t : Interpreter ω} {scope : Nat} {o : Outcome}
    (hscope : scope < s.environment.scopes.size) (h : st.execute scope s = ended o.result t) :
    Frame scope st.targets s t := by
  cases st with
  | expression e =>
      rw [execute_expression] at h
      refine (Frame.executing .expression).trans
        (.bind h (Frame.evaluation (List.Subset.refl _)) fun v s₁ _ hrest => ?_)
      obtain ⟨-, rfl⟩ := ended_eq_ok.mp hrest.symm
      exact .of_eq rfl rfl
  | print e =>
      rw [execute_print] at h
      refine (Frame.executing .print).trans
        (.bind h (Frame.evaluation (List.Subset.refl _)) fun v s₁ _ hprint => ?_)
      exact .bind hprint Frame.writing fun _ s₂ _ hline => .writing _ t hline
  | declare name initializer =>
      refine (Frame.executing .declare).trans ?_
      cases initializer with
      | none =>
          rw [execute_declare] at h
          exact .declaring hscope h
      | some e =>
          rw [execute_declare_some] at h
          refine .bind h (Frame.evaluation (List.Subset.refl _)) fun v s₁ hv hbind => ?_
          have hsize := (Frame.evaluation (n := scope) (List.Subset.refl e.targets)
            (.ok v) s₁ hv).size
          exact .declaring (hsize ▸ hscope) hbind
  | block body =>
      have hframe := frame_of_body (fun hscope hbody => frame_of_executeAll body hscope hbody) h
      exact hframe.mono (by omega) (List.Subset.refl _)
  | ifThen c st =>
      rw [execute_ifThen] at h
      refine (Frame.executing .conditional).trans
        (.bind h (Frame.evaluation (List.subset_append_left ..)) fun v s₁ hc hbranch => ?_)
      have hsize := (Frame.evaluation (n := scope) (List.Subset.refl c.targets)
        (.ok v) s₁ hc).size
      split at hbranch
      · exact (frame_of_execute st (hsize ▸ hscope) hbranch).mono (Nat.le_refl _)
          (List.subset_append_right ..)
      · obtain ⟨-, rfl⟩ := ended_eq_ok.mp hbranch.symm
        exact .of_eq rfl rfl
  | ifElse c st st' =>
      rw [execute_ifElse] at h
      refine (Frame.executing .conditional).trans
        (.bind h (Frame.evaluation (List.subset_append_left ..)) fun v s₁ hc hbranch => ?_)
      have hsize := (Frame.evaluation (n := scope) (List.Subset.refl c.targets)
        (.ok v) s₁ hc).size
      split at hbranch
      · exact (frame_of_execute st (hsize ▸ hscope) hbranch).mono (Nat.le_refl _)
          fun x hx => List.mem_append_right _ (List.mem_append_left _ hx)
      · exact (frame_of_execute st' (hsize ▸ hscope) hbranch).mono (Nat.le_refl _)
          fun x hx => List.mem_append_right _ (List.mem_append_right _ hx)

theorem frame_of_executeAll (ss : List Stmt) {s t : Interpreter ω} {scope : Nat} {o : Outcome}
    (hscope : scope < s.environment.scopes.size) (h : executeAll scope ss s = ended o.result t) :
    Frame scope (targetsAll ss) s t := by
  cases ss with
  | nil =>
      obtain ⟨-, rfl⟩ := ended_eq_ok.mp h.symm
      exact .of_eq rfl rfl
  | cons st ss =>
      rw [executeAll_cons] at h
      rcases bind_ended h with ⟨_, s₁, hst, hss⟩ | ⟨f, hst, ho⟩
      · have hst : st.execute scope s = ended (Outcome.result .done) s₁ := hst
        have hframe := frame_of_execute st hscope hst
        have hframe' := frame_of_executeAll ss (hframe.size ▸ hscope) hss
        exact (hframe.mono (Nat.le_refl _) (List.subset_append_left ..)).trans
          (hframe'.mono (Nat.le_refl _) (List.subset_append_right ..))
      · refine (frame_of_execute st hscope (o := o) ?_).mono (Nat.le_refl _)
          (List.subset_append_left ..)
        rw [hst, ho]
        rfl

end

/-- A block leaves the scope it stands in as it does the scopes around. -/
theorem frame_of_block {body : List Stmt} {s t : Interpreter ω} {scope : Nat} {o : Outcome}
    (h : (block body).execute scope s = ended o.result t) :
    Frame s.environment.scopes.size (targetsAll body) s t :=
  frame_of_body (fun hscope hbody => frame_of_executeAll body hscope hbody) h

end Stmt

/-! ## At any moment -/

namespace Interpreter

variable [Writer ω]

/-- **What a run leaves as it is.** After any calls, at every moment of a call: Evaluating an
expression that fits comes to a value or a fault. It writes nothing and adds nothing to the trace,
the current scope and the scopes around it stay open, and in them it changes only what names that
are assigned to in the expression stand for. Executing a block that fits has an outcome. Whatever
the outcome of a block is, the scopes are those from before it, with the same names bound, and only
variables whose names are assigned to in the block have other values. What it writes comes behind
what was written. -/
theorem frame_of_moment {output : ω} {calls : Calls} {s : Interpreter ω} {ss : List Stmt}
    {m : Moment ω} (h : Session output calls s) (hm : Interpreter.Visits ss s m) :
    (∀ e : Expr, e.Fits → ∃ (r : Except RuntimeError Value) (t : Interpreter ω),
      ofEvaluation (e.evaluate m.scope) m.interpreter = ended (r.mapError .runtime) t ∧
      t.output = m.interpreter.output ∧ t.trace = m.interpreter.trace ∧
      (⟨m.place, m.scope, t⟩ : Moment ω).IsStacked ∧
      Reassigns m.scope e.targets m.interpreter.environment t.environment) ∧
    ∀ body : List Stmt,
      (Stmt.AllFit body → ∃ (o : Outcome) (t : Interpreter ω),
        (Stmt.block body).execute m.scope m.interpreter = ended o.result t) ∧
      ∀ (o : Outcome) (t : Interpreter ω),
        (Stmt.block body).execute m.scope m.interpreter = ended o.result t →
        (⟨m.place, m.scope, t⟩ : Moment ω).IsStacked ∧
        Frame m.interpreter.environment.scopes.size (Stmt.targetsAll body) m.interpreter t := by
  obtain ⟨⟨σ, hrep⟩, hdepth⟩ := hm.represents h.represents
  refine ⟨fun e hfits => ?_, fun body => ⟨fun hfits => ?_, fun o t hrun => ?_⟩⟩
  · rcases e.evaluates_or_misfit hrep.frames with ⟨r, ms, hev⟩ | ⟨hmisfit, -⟩
    · obtain ⟨env, hrun, hrep'⟩ := hev.run hrep.frames
      refine ⟨r, { m.interpreter with environment := env }, ?_, rfl, rfl, ?_, e.reassigns hrun⟩
      · rw [ofEvaluation, hrun]
        cases r <;> rfl
      · exact Moment.isStacked_of_represents (σ := ⟨ms, σ.sink⟩) ⟨hrep', hrep.sink⟩ hdepth
    · exact absurd hfits hmisfit
  · rcases (Stmt.block body).executes_or_misfit hrep with ⟨o, σ', hex⟩ | ⟨hmisfit, -⟩
    · obtain ⟨t, hrun, -⟩ := hex.run hrep
      exact ⟨o, t, hrun⟩
    · exact absurd hfits hmisfit
  · obtain ⟨σ', -, hrep'⟩ := hrep.executed hrun
    exact ⟨Moment.isStacked_of_represents hrep' hdepth, Stmt.frame_of_block hrun⟩

/-- `{ var a = "in"; }` -/
def innerDeclaration : List Stmt :=
  [.block [.declare ⟨.identifier, "a", none, 1⟩ (some (.literal (.string "in")))]]

/-- The scopes behind the declaration in the block. -/
def shadowingScopes : Environment :=
  (outerDeclared.environment.openScope 0).define 1 "a" (.string "in")

/-- `-(a = nil)` -/
def failingAssignment : Expr :=
  .unary ⟨.minus, "-", none, 1⟩ (.assign ⟨.identifier, "a", none, 1⟩ (.literal .nil))

/-- Behind the declaration in a block, an expression that assigns to the name and then fails does
not change the global variable of this name. A block with it binds no name in the two scopes. -/
theorem frame_of_innerDeclaration :
    ∃ (t : Interpreter Sink) (p : Place),
      Session Sink.unbounded [(outerDeclaration, .done)] outerDeclared ∧
      Interpreter.Visits innerDeclaration outerDeclared ⟨p, 1, t⟩ ∧
      t.environment = shadowingScopes ∧ failingAssignment.Fits ∧
      (∃ (r : Except RuntimeError Value) (u : Interpreter Sink),
        ofEvaluation (failingAssignment.evaluate 1) t = ended (r.mapError .runtime) u ∧
        u.environment.slot? 0 "a" = t.environment.slot? 0 "a") ∧
      ∃ (o : Outcome) (u : Interpreter Sink),
        (Stmt.block [.expression failingAssignment]).execute 1 t = ended o.result u ∧
        (∀ i < 2, ∀ x, (u.environment.slot? i x).isSome = (t.environment.slot? i x).isSome) ∧
        ∃ bytes, u.output.written.toList = t.output.written.toList ++ bytes := by
  have hsession : Session Sink.unbounded [(outerDeclaration, .done)] outerDeclared :=
    .call .start rfl
  obtain ⟨t, henvironment, hdeclare⟩ : ∃ t : Interpreter Sink, t.environment = shadowingScopes ∧
      (Stmt.declare ⟨.identifier, "a", none, 1⟩ (some (.literal (.string "in")))).execute 1
        ((outerDeclared.noted (.executing .block)).entered 0) = .ok () t := ⟨_, rfl, rfl⟩
  have hvisits : Interpreter.Visits innerDeclaration outerDeclared ⟨_, 1, t⟩ :=
    .inside (.here (.inside (.later hdeclare .nil)))
  have hfits : failingAssignment.Fits := by
    simp [failingAssignment, Expr.Fits, Token.Kind.isUnary]
  have hbody : Stmt.AllFit [.expression failingAssignment] := ⟨hfits, trivial⟩
  obtain ⟨hexpr, hblock⟩ := frame_of_moment hsession hvisits
  obtain ⟨r, u, hrun, -, -, -, hreassigns⟩ := hexpr failingAssignment hfits
  obtain ⟨hexists, hframe⟩ := hblock [.expression failingAssignment]
  obtain ⟨o, u', hexec⟩ := hexists hbody
  refine ⟨t, _, hsession, hvisits, henvironment, hfits, ⟨r, u, hrun, ?_⟩, o, u', hexec, ?_, ?_⟩
  · by_contra hne
    obtain ⟨-, hnearest⟩ := hreassigns.changed 0 "a" hne
    have hinner : t.environment.Nearest "a" 1 1 :=
      .here (by rw [henvironment]; decide +kernel)
    cases hnearest.unique hinner
  · have hsize : t.environment.scopes.size = 2 := by
      rw [henvironment]
      rfl
    have hbound := (hframe o u' hexec).2.bound
    rwa [hsize] at hbound
  · obtain ⟨bytes, htaken⟩ := (hframe o u' hexec).2.output
    exact ⟨bytes, htaken.written_eq⟩

end Interpreter

end Lox
