import Mathlib.Tactic
import Lox.Proofs.Number.Double
import Lox.Proofs.Run.EmptyScope
import Lox.Proofs.Run.Limit
import Lox.Proofs.Scan.Spacing
import Lox.Proofs.Session.Safety

set_option autoImplicit false

/-! # Values written as literals

What a print statement shows of a value is a literal of this value, if it is put in quotes in case
it is a string. Only strings with quotes in them and numbers that are not finite have no literal
(`Value.IsWritable`). Printing the literal shows the same text again, and the operand of the print
statement is the value itself, down to the bits of a number (`Interpreter.run_literal`).
-/

namespace Lox

open Semantics

/-! ## Literals as pieces -/

namespace Piece

/-- In front of a semicolon the piece is a token of its own, which is the value. -/
structure Denotes (p : Piece) (v : Value) : Prop where
  isFirst : IsFirst p [';']
  atom : ∀ line, ∃ t, p.item? line = some (.ok t) ∧ Grammar.Atom t (.literal v)

theorem denotes_nil : Denotes ⟨.token .kwNil, ['n', 'i', 'l']⟩ .nil where
  isFirst := isFirst_first 'n' ['i', 'l', ';']
  atom _ := ⟨_, rfl, .nil rfl⟩

theorem denotes_true : Denotes ⟨.token .kwTrue, ['t', 'r', 'u', 'e']⟩ (.boolean true) where
  isFirst := isFirst_first 't' ['r', 'u', 'e', ';']
  atom _ := ⟨_, rfl, .true rfl⟩

theorem denotes_false : Denotes ⟨.token .kwFalse, ['f', 'a', 'l', 's', 'e']⟩ (.boolean false) where
  isFirst := isFirst_first 'f' ['a', 'l', 's', 'e', ';']
  atom _ := ⟨_, rfl, .false rfl⟩

theorem denotes_string {body : List Char} (h : '"' ∉ body) :
    Denotes ⟨.token .string, '"' :: (body ++ ['"'])⟩ (.string (.ofList body)) where
  isFirst := by
    have hbody : ∀ c ∈ body, decide (c ≠ '"') := by
      intro c hc
      rw [decide_eq_true_eq]
      rintro rfl
      exact h hc
    have hsplit : (body ++ '"' :: [';']).takeWhile (· ≠ '"') = body ∧
        (body ++ '"' :: [';']).dropWhile (· ≠ '"') = '"' :: [';'] := takeWhile_eq hbody (by simp)
    have hquoted : quoted '"' (body ++ '"' :: [';']) =
        (⟨.token .string, '"' :: (body ++ ['"'])⟩, [';']) := by
      simp only [quoted, hsplit]
    have hfirst := isFirst_quoted (body ++ '"' :: [';'])
    rwa [hquoted] at hfirst
  atom line := by
    have hliteral : literal? .string ('"' :: (body ++ ['"'])) = some (.string (.ofList body)) := by
      simp [literal?]
    have hatom : Grammar.Atom ⟨.string, .ofList ('"' :: (body ++ ['"'])), _, line⟩
        (.literal (.string (.ofList body))) := .string rfl hliteral .string
    exact ⟨_, rfl, hatom⟩

/-- The digits at the front of a text end where it goes on with another character. -/
theorem number_of_digits {c e : Char} {cs es : List Char} (hcs : ∀ d ∈ cs, d.isDigit)
    (he : e.isDigit = false) : number c (cs ++ e :: es) =
      (⟨.token .number, c :: (cs ++ (fraction (e :: es)).1)⟩, (fraction (e :: es)).2) := by
  have hsplit : (cs ++ e :: es).takeWhile Char.isDigit = cs ∧
      (cs ++ e :: es).dropWhile Char.isDigit = e :: es := takeWhile_eq hcs he
  simp only [number, hsplit]

theorem denotes_number {cs : List Char} (h : Lexeme.IsNumeral cs) :
    Denotes ⟨.token .number, cs⟩ (.number (Numeral.read cs)) where
  isFirst := by
    have hsemicolon : Char.isDigit ';' = false := by decide
    rcases h with ⟨hne, hdigits⟩ | ⟨whole, part, ⟨hne, hwhole⟩, ⟨hne', hpart⟩, rfl⟩
    · obtain ⟨c, cs, rfl⟩ := List.exists_cons_of_ne_nil hne
      obtain ⟨hc, hcs⟩ := List.forall_mem_cons.mp hdigits
      have hfirst := isFirst_number hc (cs ++ ';' :: [])
      rw [number_of_digits hcs hsemicolon] at hfirst
      simpa [fraction] using hfirst
    · obtain ⟨c, cs, rfl⟩ := List.exists_cons_of_ne_nil hne
      obtain ⟨d, ds, rfl⟩ := List.exists_cons_of_ne_nil hne'
      obtain ⟨hc, hcs⟩ := List.forall_mem_cons.mp hwhole
      obtain ⟨hd, hds⟩ := List.forall_mem_cons.mp hpart
      have hpoint : Char.isDigit '.' = false := by decide
      have hfraction : fraction ('.' :: d :: (ds ++ ';' :: [])) = ('.' :: d :: ds, [';']) := by
        have hsplit : (ds ++ ';' :: []).takeWhile Char.isDigit = ds ∧
            (ds ++ ';' :: []).dropWhile Char.isDigit = [';'] := takeWhile_eq hds hsemicolon
        rw [fraction, if_pos hd, hsplit.1, hsplit.2]
      have hfirst := isFirst_number hc (cs ++ '.' :: d :: (ds ++ ';' :: []))
      rw [number_of_digits hcs hpoint, hfraction] at hfirst
      exact hfirst
  atom line := by
    have hatom : Grammar.Atom ⟨.number, .ofList cs, _, line⟩
        (.literal (.number (Numeral.read cs))) := .number rfl rfl .number
    exact ⟨_, rfl, hatom⟩

theorem covers_semicolon : Covers [⟨.token .semicolon, [';']⟩] [';'] :=
  .cons (isFirst_first ';' []) .nil

/-- Pieces and further pieces, which end behind the text of the former. -/
theorem ends_append (front : List Char) (ps qs : List Piece) :
    ends front (ps ++ qs) = ends front ps ++ ends (front ++ ps.flatMap text) qs := by
  induction ps generalizing front with
  | nil => simp [ends]
  | cons p ps ih => simp [ends, ih]

end Piece

/-! ## Printing an operand -/

/-- The source that prints what the text is. -/
def printing (operand : String) : String := "print " ++ operand ++ ";"

namespace Piece

/-- The pieces of a print statement, by the pieces of its operand. -/
def printed (ps : List Piece) : List Piece :=
  ⟨.token .kwPrint, ['p', 'r', 'i', 'n', 't']⟩ :: ⟨.blank, [' ']⟩ ::
    (ps ++ [⟨.token .semicolon, [';']⟩])

theorem covers_printed {operand : String} {ps : List Piece}
    (h : Covers (ps ++ [⟨.token .semicolon, [';']⟩]) (operand.toList ++ [';'])) :
    Covers (printed ps) (printing operand).toList := by
  have hword : IsFirst ⟨.token .kwPrint, ['p', 'r', 'i', 'n', 't']⟩
      (' ' :: (operand.toList ++ [';'])) :=
    isFirst_first 'p' ('r' :: 'i' :: 'n' :: 't' :: ' ' :: (operand.toList ++ [';']))
  have hblank : IsFirst ⟨.blank, [' ']⟩ (operand.toList ++ [';']) := isFirst_first ' ' _
  have htext : (printing operand).toList =
      ['p', 'r', 'i', 'n', 't'] ++ ([' '] ++ (operand.toList ++ [';'])) := by simp [printing]
  rw [htext]
  exact .cons hword (.cons hblank h)

/-- In front of its end, a piece that denotes a value yields one token, which is the value. -/
theorem Denotes.yields {p : Piece} {v : Value} (h : p.Denotes v) (front : List Char) :
    ∃ t, (ends front [p]).filterMap yield? = [t].map .ok ∧ Grammar.Atom t (.literal v) := by
  obtain ⟨t, ht, hatom⟩ := h.atom (1 + (front ++ p.text).count '\n')
  exact ⟨t, List.filterMap_cons_some ht, hatom⟩

/-- The tokens of a print statement, by the tokens of its operand. -/
def printedTokens (ts : List Token) (line : Nat) : List Token :=
  ⟨.kwPrint, "print", none, 1⟩ :: (ts ++ [⟨.semicolon, ";", none, line⟩])

theorem itemsOf_printed {ps : List Piece} {ts : List Token}
    (h : (ends "print ".toList ps).filterMap yield? = ts.map .ok) :
    ∃ line, itemsOf (printed ps) = (printedTokens ts line).map .ok := by
  have hoperand : itemsOf (printed ps) = .ok ⟨.kwPrint, "print", none, 1⟩ ::
      (ends "print ".toList (ps ++ [⟨.token .semicolon, [';']⟩])).filterMap yield? := rfl
  refine ⟨1 + ("print ".toList ++ ps.flatMap text ++ [';']).count '\n', ?_⟩
  rw [hoperand, ends_append, List.filterMap_append, h, printedTokens, List.map_cons,
    List.map_append]
  rfl

end Piece

namespace Grammar

/-- A unary expression is an expression of every level. -/
theorem Expression.of_unary {ts : List Token} {e : Expr} {bad : List Token}
    (h : Expression .unary ts e bad) : Expression .expression ts e bad :=
  .loosest (.single (.single (.single (.single (.single (.single h))))))

theorem Atom.kind_ne_eof {t : Token} {e : Expr} (h : Atom t e) : t.kind ≠ .eof := by
  cases h with
  | «false» h | «true» h | nil h | number h | string h | name h => simp [h]

end Grammar

namespace Faultless

open Piece (printedTokens)

/-- An operand can be printed if its pieces are right in front of a semicolon and yield the tokens
of an expression. -/
theorem of_operand {operand : String} {ps : List Piece} {ts : List Token} {e : Expr}
    (hcovers : Piece.Covers (ps ++ [⟨.token .semicolon, [';']⟩]) (operand.toList ++ [';']))
    (hyields : (Piece.ends "print ".toList ps).filterMap Piece.yield? = ts.map .ok)
    (hne : ∀ t ∈ ts, t.kind ≠ .eof) (h : Grammar.Expression .expression ts e []) :
    Faultless (printing operand) [.print e] := by
  obtain ⟨line, hitems⟩ := Piece.itemsOf_printed hyields
  obtain ⟨htokens, herrors⟩ := Scan.ofString_of_covers (Piece.covers_printed hcovers)
  have hsome : Except.toOption ∘ (.ok : Token → Item) = some := rfl
  rw [hitems, List.filterMap_map] at htokens herrors
  rw [hsome, List.filterMap_some] at htokens
  refine ⟨herrors.trans (List.filterMap_eq_nil_iff.mpr fun _ _ => rfl), ?_⟩
  have hbefore : ∀ t ∈ printedTokens ts line, t.kind ≠ .eof := by
    simpa [printedTokens, or_imp, forall_and] using hne
  have hstrict : Grammar.Strict (printedTokens ts line) [.print e] := by
    have hprint : Grammar.Statements .statement (printedTokens ts line) [.print e] [] :=
      .print rfl h rfl
    have hstatements := Grammar.Statements.cons (.statement hprint) .nil
    rwa [List.append_nil] at hstatements
  rw [htokens]
  exact (Program.ofTokens_eq_iff_strict (Program.body_concat hbefore rfl)).mpr hstrict

variable {p : Piece} {v : Value}

/-- A literal can be printed. -/
theorem printing_literal (h : p.Denotes v) :
    Faultless (printing (.ofList p.text)) [.print (.literal v)] := by
  obtain ⟨t, hyields, hatom⟩ := h.yields "print ".toList
  have hcovers : Piece.Covers ([p] ++ [⟨.token .semicolon, [';']⟩])
      ((String.ofList p.text).toList ++ [';']) := by
    rw [String.toList_ofList]
    exact .cons h.isFirst Piece.covers_semicolon
  have hne : ∀ u ∈ [t], u.kind ≠ .eof := List.forall_mem_singleton.mpr hatom.kind_ne_eof
  exact of_operand hcovers hyields hne (.of_unary (.primary (.atom hatom)))

/-- A literal can be printed with a minus in front of it. -/
theorem printing_minus (h : p.Denotes v) : ∃ operator : Token, operator.kind = .minus ∧
    Faultless (printing (.ofList ('-' :: p.text)))
      [.print (.unary operator (.literal v))] := by
  obtain ⟨t, hatend, hatom⟩ := h.yields ("print ".toList ++ ['-'])
  have hcovers : Piece.Covers ([⟨.token .minus, ['-']⟩, p] ++ [⟨.token .semicolon, [';']⟩])
      ((String.ofList ('-' :: p.text)).toList ++ [';']) := by
    have hminus : Piece.IsFirst ⟨.token .minus, ['-']⟩ (p.text ++ [';']) :=
      Piece.isFirst_first '-' _
    rw [String.toList_ofList]
    exact .cons hminus (.cons h.isFirst Piece.covers_semicolon)
  have hyields : (Piece.ends "print ".toList [⟨.token .minus, ['-']⟩, p]).filterMap Piece.yield? =
      [⟨.minus, "-", none, 1⟩, t].map .ok := by
    rw [List.map_cons, ← hatend]
    rfl
  have hne : ∀ u ∈ [⟨.minus, "-", none, 1⟩, t], u.kind ≠ .eof := by
    simpa using hatom.kind_ne_eof
  exact ⟨⟨.minus, "-", none, 1⟩, rfl,
    of_operand hcovers hyields hne (.of_unary (.unary (.inr rfl) (.primary (.atom hatom))))⟩

end Faultless

/-! ## Values with a literal -/

/-- Wherever the expression is evaluated, it comes to the value, and the variables stay. -/
structure Expr.IsConstant (e : Expr) (v : Value) : Prop where
  evaluate (scope : Nat) (env : Environment) : e.evaluate scope env = .ok v env
  evaluates (ms : Frames) : Evaluates e ms (.ok v) ms

theorem Expr.isConstant_literal (v : Value) : (Expr.literal v).IsConstant v :=
  ⟨fun _ _ => rfl, fun _ => .literal⟩

theorem Expr.isConstant_minus {operator : Token} (h : operator.kind = .minus) (x : Float) :
    (Expr.unary operator (.literal (.number x))).IsConstant (.number (-x)) where
  evaluate scope env := by
    have happly : operator.applyUnary (.number x) = .ok (.number (-x)) := by
      simp only [Token.applyUnary, h]
    show (do MonadExcept.ofExcept (operator.applyUnary (.number x)) : Evaluation Value) env = _
    rw [happly]
    rfl
  evaluates _ := .unary .literal (.negate h)

namespace Value

/-- The values that can be written as a literal, with a minus in front of it if need be. -/
def IsWritable : Value → Prop
  | number x => x.isFinite
  | string s => '"' ∉ s.toList
  | _ => True

/-- The value as a literal: what a print statement shows of it, in quotes if it is a string. -/
def literalText : Value → String
  | string s => "\"" ++ s ++ "\""
  | v => v.text

theorem exists_print_of_denotes {p : Piece} {v : Value} (h : p.Denotes v)
    (htext : v.literalText.toList = p.text) :
    ∃ e : Expr, Faultless (printing v.literalText) [.print e] ∧ e.IsConstant v := by
  have hprogram := Faultless.printing_literal h
  rw [← htext, String.ofList_toList] at hprogram
  exact ⟨_, hprogram, Expr.isConstant_literal v⟩

/-- A source that prints a value as a literal is a program, and its operand is this value. -/
theorem IsWritable.exists_print {v : Value} (h : v.IsWritable) :
    ∃ e : Expr, Faultless (printing v.literalText) [.print e] ∧ e.IsConstant v := by
  cases v with
  | nil => exact exists_print_of_denotes Piece.denotes_nil (by decide)
  | boolean b =>
      cases b with
      | false => exact exists_print_of_denotes Piece.denotes_false (by decide)
      | true => exact exists_print_of_denotes Piece.denotes_true (by decide)
  | string s =>
      have hdenotes := Piece.denotes_string h
      rw [String.ofList_toList] at hdenotes
      exact exists_print_of_denotes hdenotes (by simp [literalText])
  | number x =>
      obtain ⟨cs, hcs, ⟨htext, hread⟩ | ⟨htext, hread⟩⟩ := Numeral.text_of_isFinite h
      · have hdenotes := Piece.denotes_number hcs
        rw [hread] at hdenotes
        exact exists_print_of_denotes hdenotes (by simp [literalText, text, htext])
      · -- the minus is an operator, and the numeral behind it denotes the absolute value
        obtain ⟨operator, hminus, hprogram⟩ := Faultless.printing_minus (Piece.denotes_number hcs)
        have hconstant := Expr.isConstant_minus hminus (Numeral.read cs)
        rw [← htext] at hprogram
        rw [hread] at hconstant
        exact ⟨_, hprogram, hconstant⟩

end Value

/-! ## Sinks that never run full -/

variable {ω : Type} [Writer ω]

namespace Writer

/-- Whatever the sink has taken, it takes some of the bytes that it is offered next. -/
def Unbounded (sink : ω) : Prop :=
  ∀ (taken : List UInt8) (sink' : ω), Takes sink taken sink' →
    ∀ offered : List UInt8, offered ≠ [] → ∃ (n : Nat) (sink'' : ω),
      0 < n ∧ n ≤ offered.length ∧ write offered sink' = (.took n, sink'')

namespace Unbounded

variable {sink sink' : ω}

theorem of_takes {taken : List UInt8} (h : Unbounded sink) (ht : Takes sink taken sink') :
    Unbounded sink' := fun _ _ hs => h _ _ (ht.trans hs)

/-- A sink that never runs full takes everything. -/
theorem writes (h : Unbounded sink) (bytes : List UInt8) :
    ∃ sink', Writes bytes sink (.ok ()) sink' ∧ Unbounded sink' := by
  -- each write leaves fewer bytes
  induction hlength : bytes.length using Nat.strong_induction_on generalizing bytes sink with
  | _ k ih =>
    by_cases hne : bytes = []
    · subst hne
      exact ⟨sink, .nothing, h⟩
    · obtain ⟨n, sink₁, hpos, hle, hwrite⟩ := h [] sink .nothing bytes hne
      have hless : (bytes.drop n).length < k := by
        rw [List.length_drop]
        omega
      obtain ⟨sink', hrest, h'⟩ := ih _ hless (h.of_takes (.took hwrite .nothing)) _ rfl
      exact ⟨sink', .some hne hwrite (by omega) hrest, h'⟩

theorem prints (h : Unbounded sink) (text : String) : ∃ sink', Prints text sink (.ok ()) sink' := by
  obtain ⟨sink₁, htext, h₁⟩ := h.writes (bytesOf text)
  obtain ⟨sink', hbreak, -⟩ := h₁.writes (bytesOf "\n")
  exact ⟨sink', .line htext hbreak⟩

end Unbounded

/-- A sink in memory keeps its limit. -/
theorem Takes.limit_eq {sink sink' : Sink} {bytes : List UInt8} (h : Takes sink bytes sink') :
    sink'.limit = sink.limit := by
  induction h with
  | nothing => rfl
  | took h _ ih | refused h _ ih =>
      rw [ih]
      simp only [Writer.write] at h
      split at h <;> cases h <;> rfl

/-- A sink in memory without a limit never runs full. -/
theorem unbounded_of_limit {sink : Sink} (h : sink.limit = none) : Unbounded sink := by
  intro taken sink' ht offered hne
  have hroom : sink'.room offered.length = offered.length := by
    rw [Sink.room, ht.limit_eq, h]
  have hpos : 0 < offered.length := List.length_pos_iff.mpr hne
  refine ⟨offered.length, sink'.took (offered.take offered.length), hpos, le_rfl, ?_⟩
  rw [Sink.write_of_room (by omega), hroom]

end Writer

namespace Semantics

variable {sink sink' : ω}

/-- What is written without an error has been taken as a whole. -/
theorem Writes.takes_all {bytes : List UInt8} (h : Writes bytes sink (.ok ()) sink') :
    Writer.Takes sink bytes sink' := by
  generalize hr : (.ok () : Except WriteError Unit) = r at h
  induction h with
  | nothing => exact .nothing
  | @some bytes _ _ _ n _ _ hwrite _ _ ih =>
      have htakes := Writer.Takes.took hwrite (ih hr)
      rwa [List.take_append_drop] at htakes
  | stalled => cases hr
  | refused => cases hr

theorem Prints.takes_line {text : String} (h : Prints text sink (.ok ()) sink') :
    Writer.Takes sink (lineOf text) sink' := by
  cases h with
  | line ht hn => exact ht.takes_all.trans hn.takes_all

end Semantics

/-! ## Running a literal -/

namespace Interpreter

/-- **Literals.** Between runs, an interpreter with a sink that never runs full prints any value
that is written as a literal: the source is a print statement whose operand is the very value, the
run succeeds, what the value shows is written as a line, and no variable changes. -/
theorem run_literal {output : ω} {s : Interpreter ω} (h : Used output s)
    (hfree : Writer.Unbounded s.output) {v : Value} (hv : v.IsWritable) :
    ∃ (e : Expr) (t : Interpreter ω),
      Faultless (printing v.literalText) [.print e] ∧
      (∀ scope env, e.evaluate scope env = .ok v env) ∧
      run (printing v.literalText) s = .ok () t ∧
      Prints v.text s.output (.ok ()) t.output ∧
      Writer.Takes s.output (lineOf v.text) t.output ∧
      t.environment = s.environment := by
  obtain ⟨⟨ms, sink⟩, hrep⟩ := h.represents
  obtain ⟨e, hprogram, hconstant⟩ := hv.exists_print
  obtain ⟨sink', hprints⟩ := hfree.prints v.text
  obtain rfl : s.output = sink := hrep.sink
  have hex : ExecutesAll [.print e] ⟨ms, s.output⟩ .done ⟨ms, sink'⟩ :=
    .cons (.print (hconstant.evaluates ms) (shows_text v) hprints) .nil
  obtain ⟨t, hrun, hrep'⟩ := run_of_executesAll hprogram hex hrep
  obtain rfl : t.output = sink' := hrep'.sink
  exact ⟨e, t, hprogram, hconstant.evaluate, hrun, hprints, hprints.takes_line,
    hrep'.frames.unique hrep.frames⟩

/-- The negative zero. -/
def negativeZero : Value := .number (.ofBits 0x8000000000000000)

/-- A new interpreter that is given `print -0;` computes the negative zero and shows it. -/
theorem run_literal_negativeZero :
    Used Sink.unbounded (.initial Sink.unbounded) ∧ Writer.Unbounded Sink.unbounded ∧
      negativeZero.IsWritable ∧ printing negativeZero.literalText = "print -0;" ∧
      ∃ (e : Expr) (t : Interpreter Sink),
        Faultless "print -0;" [.print e] ∧
        (∀ scope env, e.evaluate scope env = .ok negativeZero env) ∧
        run "print -0;" (.initial Sink.unbounded) = .ok () t ∧
        t.output.written.toList = [45, 48, 10] ∧ t.environment = .initial := by
  have hused : Used Sink.unbounded (.initial Sink.unbounded) := .new
  have hfree : Writer.Unbounded Sink.unbounded := Writer.unbounded_of_limit rfl
  have hv : negativeZero.IsWritable := by
    show (Float.ofBits 0x8000000000000000).isFinite = true
    decide +kernel
  have hsource : printing negativeZero.literalText = "print -0;" := by decide +kernel
  have hline : lineOf negativeZero.text = [45, 48, 10] := by decide +kernel
  obtain ⟨e, t, hprogram, heval, hrun, -, htakes, henv⟩ := run_literal hused hfree hv
  rw [hsource] at hprogram hrun
  have hwritten := htakes.written_eq
  rw [hline] at hwritten
  exact ⟨hused, hfree, hv, hsource, e, t, hprogram, heval, hrun, hwritten, henv⟩

end Interpreter

end Lox
