import Lox.Number.Numeral
import Lox.Token.Piece

set_option autoImplicit false

/-! # Token streams

A source text is read as a stream of items: tokens, and lexical errors in their places. Blanks and
comments yield no item. An item lies on the line on which its piece of the text ends, so a string
over several lines is on the last of them. The token for the end of the source comes once, after
everything else; from then on the stream yields nothing.

`Scan` is what the whole stream yields, tokens and errors apart.
-/

namespace Lox

namespace LexError

/-- What is wrong with a piece of the source text. -/
inductive Cause where
  | unexpectedCharacter
  | unterminatedString
deriving DecidableEq

/-- The cause in words. -/
def Cause.message : Cause → String
  | unexpectedCharacter => "Unexpected character."
  | unterminatedString => "Unterminated string."

end LexError

/-- A piece of the source text that is no token. -/
structure LexError where
  line : Nat
  cause : LexError.Cause
deriving DecidableEq

namespace LexError

def message (e : LexError) : String := e.cause.message

/-- The whole error message. -/
def text (e : LexError) : String := s!"[line {e.line}] Error: {e.message}"

end LexError

/-- What a stream yields. -/
abbrev Item := Except LexError Token

namespace Piece

/-- The line breaks in a piece. -/
def lineBreaks (p : Piece) : Nat := p.text.count '\n'

/-- The literal that a lexeme of the kind `kind` denotes: a string is the text between its
quotes. -/
def literal? (kind : Token.Kind) (lexeme : List Char) : Option Token.Literal :=
  match kind with
  | .string => some (.string (.ofList lexeme.tail.dropLast))
  | .number => some (.number (Numeral.read lexeme))
  | _ => none

/-- The item that a piece yields if it ends on the line `line`. -/
def item? (p : Piece) (line : Nat) : Option Item :=
  match p.form with
  | .blank | .comment => none
  | .token kind => some (.ok ⟨kind, .ofList p.text, literal? kind p.text, line⟩)
  | .stray => some (.error ⟨line, .unexpectedCharacter⟩)
  | .unterminated => some (.error ⟨line, .unterminatedString⟩)

end Piece

namespace Token

/-- A source text that is being read: the line it has been read to, and the text that is left.
There is none left once the end of the source has been yielded. -/
structure Stream where
  line : Nat
  left : Option (List Char)
deriving DecidableEq

namespace Stream

/-- A source text none of which has been read yet. -/
def ofString (source : String) : Stream := ⟨1, some source.toList⟩

/-- How often a stream can yield at most. -/
def size (s : Stream) : Nat :=
  match s.left with
  | none => 0
  | some cs => cs.length + 1

/-- The next item of a text that is read from the line `line` on. -/
def read (line : Nat) : List Char → Item × Stream
  | [] => (.ok (.endOn line), ⟨line, none⟩)
  | c :: cs =>
    let piece := (Piece.first c cs).1
    let rest := (Piece.first c cs).2
    match piece.item? (line + piece.lineBreaks) with
    | some item => (item, ⟨line + piece.lineBreaks, some rest⟩)
    | none => read (line + piece.lineBreaks) rest
termination_by cs => cs.length
decreasing_by exact Nat.lt_succ_of_le (Piece.rest_length_le c cs)

/-- The next item of a stream, and the stream after it. -/
def next? (s : Stream) : Option (Item × Stream) := s.left.map (read s.line)

/-- Reading on never lengthens what is left. -/
theorem size_read_le (line : Nat) (cs : List Char) : (read line cs).2.size ≤ cs.length := by
  induction hn : cs.length using Nat.strongRecOn generalizing line cs with
  | ind n ih =>
    cases cs with
    | nil => simp [read, size]
    | cons c cs =>
      have hle := Piece.rest_length_le c cs
      rw [List.length_cons] at hn
      rw [read]
      split
      · simp only [size]
        omega
      · exact Nat.le_trans (ih _ (by omega) _ _ rfl) (by omega)

/-- Yielding an item shortens the stream. -/
theorem size_lt_of_next? {s t : Stream} {item : Item} (h : s.next? = some (item, t)) :
    t.size < s.size := by
  unfold next? at h
  cases hs : s.left with
  | none => simp [hs] at h
  | some cs =>
    rw [hs, Option.map_some, Option.some.injEq] at h
    have hle := size_read_le s.line cs
    rw [h] at hle
    simp only [size, hs] at *
    omega

/-- Everything that a stream yields, in order. -/
def items (s : Stream) : List Item :=
  match _h : s.next? with
  | none => []
  | some (item, t) => item :: t.items
termination_by s.size
decreasing_by exact size_lt_of_next? _h

end Stream

end Token

/-- The tokens and the lexical errors of a source text. -/
structure Scan where
  tokens : List Token
  errors : List LexError

namespace Scan

/-- The error that an item is, if it is one. -/
def error? : Item → Option LexError
  | .ok _ => none
  | .error e => some e

/-- Sorts items into tokens and errors. -/
def ofItems (items : List Item) : Scan := ⟨items.filterMap Except.toOption, items.filterMap error?⟩

/-- Reads a source text to its end. -/
def ofString (source : String) : Scan := ofItems (Token.Stream.ofString source).items

end Scan

end Lox
