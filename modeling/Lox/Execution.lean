import Lox.Evaluation
import Lox.Trace

set_option autoImplicit false

/-! # Execution of statements

An interpreter holds the environment, the sink for the output, and the trace. It executes
statements one after the other until one fails; what was done before the failure stays done. A
block is executed in a scope of its own, which is closed on success and on failure alike. Only a
misfit operator leaves everything as it is.
-/

namespace Lox

/-- The state that statements are executed on. -/
structure Interpreter (ω : Type) where
  environment : Environment
  output : ω
  trace : Array Event

/-- A computation on an interpreter, which may fail. -/
abbrev Execution (ω : Type) := EStateM Failure (Interpreter ω)

namespace Interpreter

/-- An interpreter that has executed nothing yet. -/
def initial {ω : Type} (output : ω) : Interpreter ω := ⟨.initial, output, #[]⟩

end Interpreter

namespace Execution

variable {ω α : Type}

/-- Adds an event to the trace. -/
def note (event : Event) : Execution ω Unit :=
  modify fun s => { s with trace := s.trace.push event }

/-- Evaluates on the environment of the interpreter. -/
def ofEvaluation (m : Evaluation α) : Execution ω α := fun s =>
  match m s.environment with
  | .ok a env => .ok a { s with environment := env }
  | .error f env => .error f { s with environment := env }

/-- Writes to the sink of the interpreter. -/
def ofWriting (m : EStateM WriteError ω α) : Execution ω α := fun s =>
  match m s.output with
  | .ok a output => .ok a { s with output }
  | .error e output => .error (.output e) { s with output }

/-- Opens a scope inside the scope `inside`. -/
def openScope (inside : Nat) : Execution ω Nat := do
  let scope := (← get).environment.scopes.size
  modify fun s => { s with environment := s.environment.openScope inside }
  note (.opened scope inside)
  pure scope

/-- Closes a scope; this is noted before it is done. -/
def closeScope (scope : Nat) : Execution ω Unit := do
  note (.closed scope)
  modify fun s => { s with environment := s.environment.closeScope scope }

/-- Executes in a new scope inside the scope `inside`. -/
def inScope (inside : Nat) (run : Nat → Execution ω Unit) : Execution ω Unit := do
  let scope ← openScope inside
  try
    run scope
  catch f =>
    unless f.isMisfit do
      closeScope scope
    throw f
  closeScope scope

end Execution

namespace Stmt

open Execution

variable {ω : Type} [Writer ω]

mutual

/-- Executes a statement in the scope `scope`. -/
def execute (scope : Nat) (s : Stmt) : Execution ω Unit := do
  note (.executing s.form)
  match s with
  | expression e => discard (ofEvaluation (e.evaluate scope))
  | print e => do
    let v ← ofEvaluation (e.evaluate scope)
    ofWriting (Writer.writeText v.text)
    ofWriting (Writer.writeText "\n")
  | declare name initializer => do
    let v ← match initializer with
      | some e => ofEvaluation (e.evaluate scope)
      | none => pure .nil
    modify fun s => { s with environment := s.environment.define scope name.lexeme v }
  | block body => inScope scope fun inner => executeAll inner body
  | ifThen condition thenBranch => do
    let v ← ofEvaluation (condition.evaluate scope)
    if v.isTruthy then thenBranch.execute scope
  | ifElse condition thenBranch elseBranch => do
    let v ← ofEvaluation (condition.evaluate scope)
    if v.isTruthy then thenBranch.execute scope else elseBranch.execute scope

/-- Executes statements in the scope `scope`, up to the first that fails. -/
def executeAll (scope : Nat) : List Stmt → Execution ω Unit
  | [] => pure ()
  | s :: ss => do
    s.execute scope
    executeAll scope ss

end

end Stmt

namespace Interpreter

open Execution

variable {ω : Type} [Writer ω]

/-- Executes statements in the global scope. -/
def interpret (statements : List Stmt) : Execution ω Unit := do
  try
    Stmt.executeAll Environment.global statements
  catch f =>
    unless f.isMisfit do
      note (.aborted f)
    throw f

end Interpreter

end Lox
