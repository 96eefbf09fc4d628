set_option autoImplicit false

/-! # Output

A program writes to a sink, a value of any type with a `Writer` instance. One write may take fewer
bytes than it is given, so `writeAll` repeats it until all are taken, and fails as soon as a write
is refused or takes nothing. `Sink` keeps what was written in memory, up to a limit if it has one.
-/

namespace Lox

/-- What a write came to: how many bytes it took, or why it took none. -/
inductive Written where
  | took (count : Nat)
  | refused (reason : String)
deriving DecidableEq

/-- A type of sinks, each of which takes bytes and so becomes another. -/
class Writer (ω : Type) where
  /-- Offers bytes to the sink. What the sink takes is taken from the front. -/
  write : List UInt8 → ω → Written × ω

/-- Why not everything could be written. -/
inductive WriteError where
  | refused (reason : String)
  | stalled
deriving DecidableEq

/-- The reason in words; a sink that refuses gives its own. -/
def WriteError.message : WriteError → String
  | refused reason => reason
  | stalled => "failed to write whole buffer"

namespace Writer

variable {ω : Type} [Writer ω]

/-- Writes all the bytes. Nothing is offered to the sink if there are none. -/
def writeAll (bytes : List UInt8) : EStateM WriteError ω Unit := fun sink =>
  match bytes with
  | [] => .ok () sink
  | b :: bs =>
    match write (b :: bs) sink with
    | (.took (n + 1), sink) => writeAll (bs.drop n) sink
    | (.took 0, sink) => .error .stalled sink
    | (.refused reason, sink) => .error (.refused reason) sink
termination_by bytes.length
decreasing_by
  simp only [List.length_drop, List.length_cons]
  omega

/-- Writes a text, encoded as UTF-8. -/
def writeText (text : String) : EStateM WriteError ω Unit := writeAll text.toUTF8.data.toList

end Writer

namespace Sink

/-- What a full sink does with further bytes. -/
inductive WhenFull where
  | refuse (reason : String)
  | stall
deriving DecidableEq

end Sink

/-- A sink in memory. It takes at most `limit` bytes altogether. -/
structure Sink where
  written : Array UInt8
  limit : Option Nat
  whenFull : Sink.WhenFull
deriving DecidableEq

namespace Sink

/-- A sink without a limit. -/
def unbounded : Sink := ⟨#[], none, .stall⟩

/-- A sink that takes `limit` bytes and no more. -/
def bounded (limit : Nat) (whenFull : WhenFull) : Sink := ⟨#[], some limit, whenFull⟩

/-- How many of `n` further bytes the sink takes. -/
def room (s : Sink) (n : Nat) : Nat :=
  match s.limit with
  | none => n
  | some limit => min n (limit - s.written.size)

/-- A sink takes as many bytes of a write as it has room for. -/
instance : Writer Sink where
  write bytes s :=
    match s.room bytes.length, s.whenFull with
    | 0, .refuse reason => (.refused reason, s)
    | 0, .stall => (.took 0, s)
    | n + 1, _ => (.took (n + 1), { s with written := s.written ++ bytes.take (n + 1) })

end Sink

end Lox
