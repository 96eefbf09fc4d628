import Mathlib.Tactic
import Lox.Proofs.Run.Scopes

set_option autoImplicit false

/-! # Sinks that run full

A sink with a limit takes what fits and then fails every write. A program on such a sink does what
it does on one without a limit as long as the output fits. If it does not, the output is cut where
the sink is full, and the write that does not fit is the last thing that the program does
(`Interpreter.interpret_limited`).

The induction is along the run on the sink without a limit. Of every statement in it, it says what
the statement does on all other sinks (`Semantics.CutsOff`).
-/

namespace Lox

open Semantics

/-! ## Writes to a sink -/

namespace Sink

/-- The sink when it has taken the bytes. -/
def took (s : Sink) (bytes : List UInt8) : Sink := { s with written := s.written ++ bytes }

/-- The sink has a limit, and takes `n` further bytes and no more. -/
def Accepts (s : Sink) (n : Nat) : Prop :=
  ∃ limit, s.limit = some limit ∧ limit - s.written.size = n

/-- The error of a write to the sink when it is full. -/
def WhenFull.error : WhenFull → WriteError
  | refuse reason => .refused reason
  | stall => .stalled

theorem took_nil (s : Sink) : s.took [] = s := by
  simp [took]

theorem took_took (s : Sink) (bytes bytes' : List UInt8) :
    (s.took bytes).took bytes' = s.took (bytes ++ bytes') := by
  have happend : s.written ++ bytes ++ bytes' = s.written ++ (bytes ++ bytes') := by
    apply Array.ext'
    simp
  rw [took, took, took, happend]

theorem accepts_bounded (n : Nat) (whenFull : WhenFull) : (bounded n whenFull).Accepts n :=
  ⟨n, rfl, rfl⟩

theorem Accepts.took {s : Sink} {n : Nat} (h : s.Accepts n) (bytes : List UInt8) :
    (s.took bytes).Accepts (n - bytes.length) := by
  obtain ⟨limit, hlimit, rfl⟩ := h
  refine ⟨limit, hlimit, ?_⟩
  have hsize : (s.written ++ bytes).size = s.written.size + bytes.length := by
    rw [← Array.length_toList, Array.toList_appendList, List.length_append, Array.length_toList]
  show limit - (s.written ++ bytes).size = _
  omega

theorem Accepts.room {s : Sink} {n : Nat} (h : s.Accepts n) (k : Nat) : s.room k = min k n := by
  obtain ⟨limit, hlimit, rfl⟩ := h
  rw [Sink.room, hlimit]

/-- A sink that has room for some of the bytes takes what fits. -/
theorem write_of_room {s : Sink} {bytes : List UInt8} (h : s.room bytes.length ≠ 0) :
    Writer.write bytes s =
      (.took (s.room bytes.length), s.took (bytes.take (s.room bytes.length))) := by
  obtain ⟨k, hk⟩ := Nat.exists_eq_succ_of_ne_zero h
  simp only [Writer.write, hk]
  rfl

end Sink

namespace Semantics

/-- Only one thing comes of writing. -/
theorem Writes.unique {ω : Type} [Writer ω] {bytes : List UInt8} {sink sink' sink'' : ω}
    {r r' : Except WriteError Unit} (h : Writes bytes sink r sink')
    (h' : Writes bytes sink r' sink'') : r = r' ∧ sink' = sink'' :=
  ended_inj.mp (h.run.symm.trans h'.run)

variable {sink : Sink} {n : Nat}

/-- A sink with room for all the bytes takes them all. -/
theorem writes_of_room {bytes : List UInt8} (h : sink.room bytes.length = bytes.length) :
    Writes bytes sink (.ok ()) (sink.took bytes) := by
  by_cases hne : bytes = []
  · subst hne
    rw [Sink.took_nil]
    exact .nothing
  · have hlength : bytes.length ≠ 0 := by simpa using hne
    have hwrite : Writer.write bytes sink = (.took bytes.length, sink.took bytes) := by
      rw [Sink.write_of_room (by rwa [h]), h, List.take_length]
    refine .some hne hwrite hlength ?_
    rw [List.drop_length]
    exact .nothing

/-- A sink without a limit takes everything. -/
theorem writes_unlimited (h : sink.limit = none) (bytes : List UInt8) :
    Writes bytes sink (.ok ()) (sink.took bytes) := by
  apply writes_of_room
  rw [Sink.room, h]

theorem writes_fits (h : sink.Accepts n) {bytes : List UInt8} (hle : bytes.length ≤ n) :
    Writes bytes sink (.ok ()) (sink.took bytes) := by
  apply writes_of_room
  rw [h.room]
  omega

/-- A full sink takes nothing. -/
theorem writes_full (h : sink.Accepts 0) {bytes : List UInt8} (hne : bytes ≠ []) :
    Writes bytes sink (.error sink.whenFull.error) sink := by
  have hroom : sink.room bytes.length = 0 := by rw [h.room, Nat.min_zero]
  cases hfull : sink.whenFull with
  | refuse reason =>
      have hwrite : Writer.write bytes sink = (.refused reason, sink) := by
        simp only [Writer.write, hroom, hfull]
      exact .refused hne hwrite
  | stall =>
      have hwrite : Writer.write bytes sink = (.took 0, sink) := by
        simp only [Writer.write, hroom, hfull]
      exact .stalled hne hwrite

/-- A sink without room for all the bytes takes the first of them. -/
theorem writes_cut (h : sink.Accepts n) {bytes : List UInt8} (hlt : n < bytes.length) :
    Writes bytes sink (.error sink.whenFull.error) (sink.took (bytes.take n)) := by
  have hne : bytes ≠ [] := by
    rintro rfl
    cases hlt
  by_cases hn : n = 0
  · subst hn
    rw [List.take_zero, Sink.took_nil]
    exact writes_full h hne
  · have hroom : sink.room bytes.length = n := by
      rw [h.room]
      omega
    have hwrite : Writer.write bytes sink =
        (.took (sink.room bytes.length), sink.took (bytes.take (sink.room bytes.length))) :=
      Sink.write_of_room (by rwa [hroom])
    rw [hroom] at hwrite
    have hfull : (sink.took (bytes.take n)).Accepts 0 := by
      have haccepts := h.took (bytes.take n)
      rwa [List.length_take, Nat.min_eq_left (by omega), Nat.sub_self] at haccepts
    have hrest : bytes.drop n ≠ [] := by simpa using hlt
    exact .some hne hwrite hn (writes_full hfull hrest)

/-! ## Printed lines -/

/-- The bytes of a text with a line break behind it. -/
def lineOf (text : String) : List UInt8 := bytesOf text ++ bytesOf "\n"

/-- On a sink without a limit, a line is printed as a whole. -/
theorem Prints.unlimited {text : String} {sink' : Sink} {r : Except WriteError Unit}
    (h : Prints text sink r sink') (hfree : sink.limit = none) :
    r = .ok () ∧ sink' = sink.took (lineOf text) := by
  cases h with
  | line ht hn =>
      obtain ⟨-, rfl⟩ := ht.unique (writes_unlimited hfree _)
      have hfree' : (sink.took (bytesOf text)).limit = none := hfree
      obtain ⟨hr, rfl⟩ := hn.unique (writes_unlimited hfree' _)
      exact ⟨hr, Sink.took_took _ _ _⟩
  | textFails ht => cases (ht.unique (writes_unlimited hfree _)).1

theorem prints_fits (h : sink.Accepts n) {text : String} (hle : (lineOf text).length ≤ n) :
    Prints text sink (.ok ()) (sink.took (lineOf text)) := by
  rw [lineOf, List.length_append] at hle
  have htext : Writes (bytesOf text) sink _ _ := writes_fits h (by omega)
  have hbreak : Writes (bytesOf "\n") _ _ _ := writes_fits (h.took (bytesOf text)) (by omega)
  rw [Sink.took_took] at hbreak
  exact .line htext hbreak

/-- A line that does not fit is cut in its text or in front of its line break. -/
theorem prints_cut (h : sink.Accepts n) {text : String} (hlt : n < (lineOf text).length) :
    Prints text sink (.error sink.whenFull.error) (sink.took ((lineOf text).take n)) := by
  rw [lineOf, List.take_append]
  rw [lineOf, List.length_append] at hlt
  by_cases hle : (bytesOf text).length ≤ n
  · have htext := writes_fits h hle
    have hbreak : Writes (bytesOf "\n") _ _ _ := writes_cut (h.took (bytesOf text)) (by omega)
    rw [Sink.took_took] at hbreak
    rw [List.take_of_length_le hle]
    exact .line htext hbreak
  · have htext : Writes (bytesOf text) sink _ _ := writes_cut h (by omega)
    have hnone : n - (bytesOf text).length = 0 := by omega
    rw [hnone, List.take_zero, List.append_nil]
    exact .textFails htext

/-! ## Statements -/

/-- What the limit of a sink makes of a run that leads from the maps `ms` to the outcome `o` and the
maps `ms'` and writes the bytes. With room for them all nothing changes. With less room the run
comes to an end where the sink is full, in the same maps on every sink with that room. -/
structure CutsOff (R : State Sink → Outcome → State Sink → Prop) (ms : Frames)
    (bytes : List UInt8) (o : Outcome) (ms' : Frames) : Prop where
  fits : ∀ (n : Nat) (sink : Sink), sink.Accepts n → bytes.length ≤ n →
    R ⟨ms, sink⟩ o ⟨ms', sink.took bytes⟩
  cut : ∀ n < bytes.length, ∃ left, ∀ sink : Sink, sink.Accepts n →
    R ⟨ms, sink⟩ (.output sink.whenFull.error) ⟨left, sink.took (bytes.take n)⟩

namespace CutsOff

variable {R R' : State Sink → Outcome → State Sink → Prop} {ms ms₁ ms' : Frames}
  {bytes bytes' : List UInt8} {o : Outcome}

/-- What writes nothing does the same on every sink. -/
theorem silent (h : ∀ sink, R ⟨ms, sink⟩ o ⟨ms', sink⟩) : CutsOff R ms [] o ms' where
  fits n sink _ _ := by
    rw [Sink.took_nil]
    exact h sink
  cut n hn := absurd hn (Nat.not_lt_zero n)

/-- What goes on as another run does is cut off as that one is. -/
theorem imp (h : CutsOff R ms₁ bytes o ms')
    (hr : ∀ sink o' σ, (o' = .done → o = .done) → R ⟨ms₁, sink⟩ o' σ → R' ⟨ms, sink⟩ o' σ) :
    CutsOff R' ms bytes o ms' where
  fits n sink haccepts hle := hr sink o _ id (h.fits n sink haccepts hle)
  cut n hlt := by
    obtain ⟨left, hleft⟩ := h.cut n hlt
    exact ⟨left, fun sink haccepts => hr sink _ _ nofun (hleft sink haccepts)⟩

/-- Statements after one that is done are cut off where they are on the room that it leaves. -/
theorem cons {st : Stmt} {ss : List Stmt} (h : CutsOff (Executes st) ms bytes .done ms₁)
    (hs : CutsOff (ExecutesAll ss) ms₁ bytes' o ms') :
    CutsOff (ExecutesAll (st :: ss)) ms (bytes ++ bytes') o ms' where
  fits n sink haccepts hle := by
    rw [List.length_append] at hle
    have hfirst := h.fits n sink haccepts (by omega)
    have hrest := hs.fits _ _ (haccepts.took bytes) (by omega)
    rw [Sink.took_took] at hrest
    exact .cons hfirst hrest
  cut n hlt := by
    rw [List.length_append] at hlt
    rw [List.take_append]
    by_cases hle : bytes.length ≤ n
    · obtain ⟨left, hleft⟩ := hs.cut (n - bytes.length) (by omega)
      refine ⟨left, fun sink haccepts => ?_⟩
      have hfirst := h.fits n sink haccepts hle
      have hrest := hleft _ (haccepts.took bytes)
      rw [Sink.took_took] at hrest
      rw [List.take_of_length_le hle]
      exact .cons hfirst hrest
    · obtain ⟨left, hleft⟩ := h.cut n (by omega)
      refine ⟨left, fun sink haccepts => ?_⟩
      have hnone : n - bytes.length = 0 := by omega
      rw [hnone, List.take_zero, List.append_nil]
      exact .fails (hleft sink haccepts) nofun

/-- The map of a block is in front when the block is cut off, and goes away. -/
theorem block {body : List Stmt} {m : Std.ExtTreeMap String Value}
    (h : CutsOff (ExecutesAll body) (∅ :: ms) bytes o (m :: ms')) :
    CutsOff (Executes (.block body)) ms bytes o ms' where
  fits n sink haccepts hle := .block (h.fits n sink haccepts hle)
  cut n hlt := by
    obtain ⟨left, hleft⟩ := h.cut n hlt
    obtain ⟨names, hgains⟩ :=
      (hleft _ (Sink.accepts_bounded n .stall)).gains (List.cons_ne_nil _ _)
    obtain ⟨m', left', rfl⟩ := List.exists_cons_of_ne_nil hgains.ne_nil
    exact ⟨left', fun sink haccepts => .block (hleft sink haccepts)⟩

/-- A line is cut off where the sink is full. -/
theorem print {e : Expr} {v : Value} {text : String} (h : Evaluates e ms (.ok v) ms')
    (ht : Shows v text) : CutsOff (Executes (.print e)) ms (lineOf text) .done ms' where
  fits _ _ haccepts hle := .print h ht (prints_fits haccepts hle)
  cut _ hlt := ⟨ms', fun _ haccepts => .print h ht (prints_cut haccepts hlt)⟩

end CutsOff

mutual

/-- A run of a statement on a sink without a limit tells what it writes, and what becomes of it on
every other sink. -/
theorem Executes.cutsOff {st : Stmt} {σ σ' : State Sink} {o : Outcome} (h : Executes st σ o σ')
    (hfree : σ.sink.limit = none) :
    ∃ bytes, σ'.sink = σ.sink.took bytes ∧
      CutsOff (Executes st) σ.frames bytes o σ'.frames := by
  cases h with
  | expression h => exact ⟨[], (Sink.took_nil _).symm, .silent fun _ => .expression h⟩
  | expressionFails h => exact ⟨[], (Sink.took_nil _).symm, .silent fun _ => .expressionFails h⟩
  | print h ht hp =>
      obtain ⟨rfl, rfl⟩ := hp.unlimited hfree
      exact ⟨_, rfl, .print h ht⟩
  | printFails h => exact ⟨[], (Sink.took_nil _).symm, .silent fun _ => .printFails h⟩
  | declare => exact ⟨[], (Sink.took_nil _).symm, .silent fun _ => .declare⟩
  | declareValue h => exact ⟨[], (Sink.took_nil _).symm, .silent fun _ => .declareValue h⟩
  | declareFails h => exact ⟨[], (Sink.took_nil _).symm, .silent fun _ => .declareFails h⟩
  | block h =>
      obtain ⟨bytes, hsink, hcuts⟩ := h.cutsOff hfree
      exact ⟨bytes, hsink, hcuts.block⟩
  | thenBranch hc hv h =>
      obtain ⟨bytes, hsink, hcuts⟩ := h.cutsOff hfree
      exact ⟨bytes, hsink, hcuts.imp fun _ _ _ _ hs => .thenBranch hc hv hs⟩
  | noBranch hc hv => exact ⟨[], (Sink.took_nil _).symm, .silent fun _ => .noBranch hc hv⟩
  | conditionFails hc => exact ⟨[], (Sink.took_nil _).symm, .silent fun _ => .conditionFails hc⟩
  | firstBranch hc hv h =>
      obtain ⟨bytes, hsink, hcuts⟩ := h.cutsOff hfree
      exact ⟨bytes, hsink, hcuts.imp fun _ _ _ _ hs => .firstBranch hc hv hs⟩
  | secondBranch hc hv h =>
      obtain ⟨bytes, hsink, hcuts⟩ := h.cutsOff hfree
      exact ⟨bytes, hsink, hcuts.imp fun _ _ _ _ hs => .secondBranch hc hv hs⟩
  | choiceFails hc => exact ⟨[], (Sink.took_nil _).symm, .silent fun _ => .choiceFails hc⟩

theorem ExecutesAll.cutsOff {ss : List Stmt} {σ σ' : State Sink} {o : Outcome}
    (h : ExecutesAll ss σ o σ') (hfree : σ.sink.limit = none) :
    ∃ bytes, σ'.sink = σ.sink.took bytes ∧
      CutsOff (ExecutesAll ss) σ.frames bytes o σ'.frames := by
  cases h with
  | nil => exact ⟨[], (Sink.took_nil _).symm, .silent fun _ => .nil⟩
  | cons h hs =>
      obtain ⟨bytes, hsink, hcuts⟩ := h.cutsOff hfree
      obtain ⟨bytes', hsink', hcuts'⟩ := hs.cutsOff (by rw [hsink]; exact hfree)
      exact ⟨bytes ++ bytes', by rw [hsink', hsink, Sink.took_took], hcuts.cons hcuts'⟩
  | fails h ho =>
      obtain ⟨bytes, hsink, hcuts⟩ := h.cutsOff hfree
      refine ⟨bytes, hsink, hcuts.imp fun _ o' _ hdone hs => ?_⟩
      exact .fails hs fun ho' => ho (hdone ho')

end

end Semantics

namespace Interpreter

/-! ## Calls -/

/-- **Full sinks.** Let statements that fit write some bytes on a sink without a limit. On every
sink that accepts so many further bytes they write the same, with the same outcome and global
variables. On one that accepts fewer they write those that it accepts and then fail with the error
of the full sink, whatever their outcome was. How the sink fails shows in this error only. -/
theorem interpret_limited {ss : List Stmt} (hfits : Stmt.AllFit ss)
    (bindings : Std.ExtTreeMap String Value) {free : Sink} (hfree : free.limit = none)
    (trace : Array Event) :
    ∃ (bytes : List UInt8) (o : Outcome) (t : Interpreter Sink),
      interpret ss (between bindings free trace) = ended o.result t ∧
      t.output = free.took bytes ∧
      ∀ n, (bytes.length ≤ n → ∀ (sink : Sink) (trace' : Array Event), sink.Accepts n →
          ∃ u, interpret ss (between bindings sink trace') = ended o.result u ∧
            u.output = sink.took bytes ∧ u.globals = t.globals) ∧
        (n < bytes.length → ∃ globals, ∀ (sink : Sink) (trace' : Array Event), sink.Accepts n →
          ∃ u, interpret ss (between bindings sink trace') =
              .error (.output sink.whenFull.error) u ∧
            u.output = sink.took (bytes.take n) ∧ u.globals = globals) := by
  obtain ⟨o, σ, hex⟩ := hfits.exists_executesAll (represents_between bindings free trace)
  obtain ⟨bytes, hsink, hcuts⟩ := hex.cutsOff hfree
  obtain ⟨t, hrun, rfl⟩ := interpret_between hex trace
  refine ⟨bytes, o, t, hrun, hsink, fun n => ⟨fun hle sink trace' haccepts => ?_, fun hlt => ?_⟩⟩
  · obtain ⟨u, hrun', hstate⟩ := interpret_between (hcuts.fits n sink haccepts hle) trace'
    obtain ⟨hglobals, houtput⟩ := State.mk.inj hstate
    exact ⟨u, hrun', houtput.symm, (List.cons.inj hglobals).1.symm⟩
  · obtain ⟨left, hleft⟩ := hcuts.cut n hlt
    refine ⟨left.headD ∅, fun sink trace' haccepts => ?_⟩
    obtain ⟨u, hrun', hstate⟩ := interpret_between (hleft sink haccepts) trace'
    obtain ⟨rfl, houtput⟩ := State.mk.inj hstate
    exact ⟨u, hrun', houtput.symm, rfl⟩

/-- `print "é"; -nil;` -/
def printingThenFailing : List Stmt :=
  [.print (.literal (.string "é")), .expression (.unary ⟨.minus, "-", none, 1⟩ (.literal .nil))]

/-- A sink that takes one byte has half of the letter. The type error behind it never comes. -/
theorem interpret_limited_halfLetter :
    Stmt.AllFit printingThenFailing ∧ Sink.unbounded.limit = none ∧
      ∃ t u, interpret printingThenFailing (between ∅ Sink.unbounded #[]) =
          .error (.runtime ⟨⟨.minus, "-", none, 1⟩, .operandsNotNumbers⟩) t ∧
        interpret printingThenFailing (between ∅ (Sink.bounded 1 .stall) #[]) =
          .error (.output .stalled) u ∧
        u.output.written = #[0xC3] := by
  have hfits : Stmt.AllFit printingThenFailing := by
    simp [printingThenFailing, Stmt.AllFit, Stmt.Fits, Expr.Fits, Token.Kind.isUnary]
  have hfree : Sink.unbounded.limit = none := rfl
  obtain ⟨bytes, o, t, hrun, houtput, hlimited⟩ := interpret_limited hfits ∅ hfree #[]
  -- what the program does on the sink without a limit
  have hprint : Executes (.print (.literal (.string "é"))) ⟨[∅], Sink.unbounded⟩ .done
      ⟨[∅], Sink.unbounded.took (lineOf "é")⟩ := by
    have htext := writes_unlimited hfree (bytesOf "é")
    have hfree' : (Sink.unbounded.took (bytesOf "é")).limit = none := rfl
    have hbreak := writes_unlimited hfree' (bytesOf "\n")
    rw [Sink.took_took] at hbreak
    exact .print (r := .ok ()) .literal .string (.line htext hbreak)
  have hfail : Executes (.expression (.unary ⟨.minus, "-", none, 1⟩ (.literal .nil)))
      (⟨[∅], Sink.unbounded.took (lineOf "é")⟩ : State Sink)
      (.runtime ⟨⟨.minus, "-", none, 1⟩, .operandsNotNumbers⟩) _ :=
    .expressionFails (.unary .literal (.negateOther rfl fun _ => Value.noConfusion))
  obtain ⟨t', hrun', hstate⟩ :=
    interpret_between (.cons hprint (.fails hfail Outcome.noConfusion)) #[]
  obtain ⟨ho, rfl⟩ := ended_inj.mp (hrun.symm.trans hrun')
  obtain ⟨-, houtput'⟩ := State.mk.inj hstate
  have hbytes : bytes = lineOf "é" := by
    have hwritten := congrArg (fun s : Sink => s.written.toList) (houtput.symm.trans houtput'.symm)
    simpa [Sink.took, Sink.unbounded] using hwritten
  have hline : lineOf "é" = [0xC3, 0xA9, 0x0A] := by decide +kernel
  obtain ⟨globals, hcut⟩ := (hlimited 1).2 (by rw [hbytes, hline]; decide)
  obtain ⟨u, hrun₁, houtput₁, -⟩ := hcut (.bounded 1 .stall) #[] (Sink.accepts_bounded 1 .stall)
  refine ⟨hfits, hfree, t, u, hrun', hrun₁, ?_⟩
  rw [houtput₁, hbytes, hline]
  rfl

end Interpreter

end Lox
