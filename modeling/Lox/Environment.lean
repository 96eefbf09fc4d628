import Std.Data.ExtTreeMap
import Lox.Failure
import Lox.Value

set_option autoImplicit false

/-! # Environments

Variables live in scopes. An environment holds the scopes that are open, in the order in which they
were opened, and a scope goes by its index there. Each scope has a link to the scope that encloses
it, which always is an earlier one. Scope 0 is the global scope and never closes.

A name that is used in some scope stands for the variable of that name in the nearest scope on
the chain of links (`resolve`). Reading and assigning go by that scope; a definition binds the
name in the very scope it stands in.
-/

namespace Lox

/-- The variables of one scope, and the scope around it. -/
structure Scope where
  bindings : Std.ExtTreeMap String Value
  enclosing : Option Nat

namespace Scope

/-- A scope without bindings. -/
def empty (enclosing : Option Nat) : Scope := ⟨∅, enclosing⟩

/-- A binding replaces an earlier one of the same name. -/
def bind (s : Scope) (name : String) (value : Value) : Scope :=
  { s with bindings := s.bindings.insert name value }

end Scope

/-- The open scopes. There always is the global one. -/
structure Environment where
  scopes : Array Scope
  nonempty : 0 < scopes.size
  /-- A scope is enclosed in an earlier one. -/
  earlier : ∀ i (h : i < scopes.size) j, scopes[i].enclosing = some j → j < i

namespace Environment

/-- The environment with nothing but an empty global scope. -/
def initial : Environment where
  scopes := #[.empty none]
  nonempty := Nat.zero_lt_one
  earlier i h j e := by
    have hi : i = 0 := Nat.lt_one_iff.mp h
    subst hi
    simp [Scope.empty] at e

/-- The global scope was opened first. -/
def global : Nat := 0

/-! ## Opening and closing scopes -/

/-- Opens a scope inside the scope `inside`; its place is the first free one. A scope that is not
there cannot enclose anything, and the new scope is then enclosed in the global one. -/
def openScope (env : Environment) (inside : Nat) : Environment where
  scopes := env.scopes.push (.empty (some (min inside (env.scopes.size - 1))))
  nonempty := by simp
  earlier i h j e := by
    rw [Array.getElem_push] at e
    split at e
    · next hi => exact env.earlier i hi j e
    · have hpos := env.nonempty
      simp only [Array.size_push] at h
      simp only [Scope.empty, Option.some.injEq] at e
      omega

/-- Closes a scope and all that were opened after it. -/
def closeScope (env : Environment) (scope : Nat) : Environment where
  scopes := env.scopes.take (max scope 1)
  nonempty := by
    have hpos := env.nonempty
    simp only [Array.take_eq_extract, Array.size_extract]
    omega
  earlier i h j e := by
    simp only [Array.take_eq_extract, Array.getElem_extract, Nat.zero_add] at e
    exact env.earlier i (by simp only [Array.take_eq_extract, Array.size_extract] at h; omega) j e

/-! ## Variables -/

/-- Binds a name in the scope `scope` itself, in place of an earlier binding of it there. -/
def define (env : Environment) (scope : Nat) (name : String) (value : Value) :
    Environment where
  scopes := env.scopes.modify scope (·.bind name value)
  nonempty := by simpa using env.nonempty
  earlier i h j e := by
    rw [Array.getElem_modify] at e
    have hi : i < env.scopes.size := by simpa using h
    refine env.earlier i hi j ?_
    split at e
    · exact e
    · exact e

/-- The value of a name in the scope `scope` itself. -/
def slot? (env : Environment) (scope : Nat) (name : String) : Option Value :=
  env.scopes[scope]?.bind (·.bindings[name]?)

/-- The scopes that are visible from the scope `scope`, from the inside out. -/
def chain (env : Environment) (scope : Nat) : List Nat :=
  if h : scope < env.scopes.size then
    scope ::
      match e : env.scopes[scope].enclosing with
      | none => []
      | some outer => env.chain outer
  else []
termination_by scope
decreasing_by exact env.earlier scope h outer e

/-- The nearest scope that binds a name. -/
def resolve (env : Environment) (scope : Nat) (name : String) : Option Nat :=
  (env.chain scope).find? fun s => (env.slot? s name).isSome

/-- The fault of using a name that is bound nowhere. -/
def undefined (name : Token) : RuntimeError := ⟨name, .undefinedVariable name.lexeme⟩

/-- The value of the variable that a name stands for in the scope `scope`. -/
def get (env : Environment) (scope : Nat) (name : Token) : Except RuntimeError Value :=
  match (env.chain scope).findSome? fun s => env.slot? s name.lexeme with
  | some value => .ok value
  | none => .error (undefined name)

/-- Gives the variable that a name stands for another value. No new variable comes about. -/
def assign (env : Environment) (scope : Nat) (name : Token) (value : Value) :
    Except RuntimeError Environment :=
  match env.resolve scope name.lexeme with
  | some s => .ok (env.define s name.lexeme value)
  | none => .error (undefined name)

end Environment

end Lox
