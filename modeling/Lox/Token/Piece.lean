import Lox.Token

set_option autoImplicit false

/-! # Pieces of a source text

A source text falls into pieces: blanks, comments, lexemes of tokens, characters that start
nothing, and at most one string that is never closed. `Piece.first` cuts the first piece off a
text, always the longest that its first character can start. Nothing is lost in the cut
(`text_append_rest`), and a piece is never empty, so the cut makes progress (`rest_length_le`).

The letters and digits of the language are the ASCII ones.
-/

namespace Lox

namespace Piece

/-- What a piece is. -/
inductive Form where
  | blank
  | comment
  | token (kind : Token.Kind)
  | stray
  | unterminated
deriving DecidableEq

end Piece

/-- A piece of source text. -/
structure Piece where
  form : Piece.Form
  text : List Char
deriving DecidableEq

namespace Piece

open Token (Kind)

/-! ## Classes of characters -/

/-- The characters that separate pieces. -/
def isBlank (c : Char) : Bool := c = ' ' || c = '\t' || c = '\r' || c = '\n'

/-- The characters that start a word. -/
def isLetter (c : Char) : Bool := c.isAlpha || c = '_'

/-- The characters that continue a word. -/
def isWordPart (c : Char) : Bool := c.isAlphanum || c = '_'

/-- The token that a character is on its own. -/
def ofSymbol? : Char → Option Kind
  | '(' => some .leftParen
  | ')' => some .rightParen
  | '\x7b' => some .leftBrace
  | '\x7d' => some .rightBrace
  | ',' => some .comma
  | '.' => some .dot
  | '-' => some .minus
  | '+' => some .plus
  | ';' => some .semicolon
  | '/' => some .slash
  | '*' => some .star
  | '!' => some .bang
  | '=' => some .equal
  | '>' => some .greater
  | '<' => some .less
  | _ => none

/-- The token that a character is together with an equals sign right after it. -/
def ofSymbolEqual? : Char → Option Kind
  | '!' => some .bangEqual
  | '=' => some .equalEqual
  | '>' => some .greaterEqual
  | '<' => some .lessEqual
  | _ => none

/-! ## Cutting -/

/-- The text after a double slash up to the end of the line belongs to the comment. -/
def comment (c : Char) (cs : List Char) : Piece × List Char :=
  (⟨.comment, c :: cs.takeWhile (· ≠ '\n')⟩, cs.dropWhile (· ≠ '\n'))

/-- A string ends with the next quote, on whatever line that stands. -/
def quoted (c : Char) (cs : List Char) : Piece × List Char :=
  let body := cs.takeWhile (· ≠ '"')
  match cs.dropWhile (· ≠ '"') with
  | [] => (⟨.unterminated, c :: body⟩, [])
  | close :: rest => (⟨.token .string, c :: (body ++ [close])⟩, rest)

/-- Splits a point with digits after it off the front of a text. Without such a front the first
part is empty. -/
def fraction : List Char → List Char × List Char
  | '.' :: d :: rest =>
    if d.isDigit then ('.' :: d :: rest.takeWhile Char.isDigit, rest.dropWhile Char.isDigit)
    else ([], '.' :: d :: rest)
  | rest => ([], rest)

/-- A number has digits after its point, or it has no point. -/
def number (c : Char) (cs : List Char) : Piece × List Char :=
  let (part, rest) := fraction (cs.dropWhile Char.isDigit)
  (⟨.token .number, c :: (cs.takeWhile Char.isDigit ++ part)⟩, rest)

/-- A word is reserved or an identifier as a whole, never by its front. -/
def word (c : Char) (cs : List Char) : Piece × List Char :=
  let text := c :: cs.takeWhile isWordPart
  (⟨.token (.ofWord (.ofList text)), text⟩, cs.dropWhile isWordPart)

/-- A symbol of two characters is preferred to one of one character. -/
def symbol (c : Char) (cs : List Char) : Piece × List Char :=
  match ofSymbolEqual? c, cs with
  | some kind, '=' :: rest => (⟨.token kind, [c, '=']⟩, rest)
  | _, _ =>
    match ofSymbol? c with
    | some kind => (⟨.token kind, [c]⟩, cs)
    | none => (⟨.stray, [c]⟩, cs)

/-- The first piece of the text `c :: cs`, and the rest of the text. -/
def first (c : Char) (cs : List Char) : Piece × List Char :=
  if isBlank c then (⟨.blank, [c]⟩, cs)
  else if c = '"' then quoted c cs
  else if c.isDigit then number c cs
  else if isLetter c then word c cs
  else if c = '/' ∧ cs.head? = some '/' then comment c cs
  else symbol c cs

/-! ## Nothing is lost -/

theorem fraction_append (cs : List Char) : (fraction cs).1 ++ (fraction cs).2 = cs := by
  unfold fraction
  split
  · split <;> simp
  · rfl

/-- The piece followed by the rest is the text. -/
theorem text_append_rest (c : Char) (cs : List Char) :
    (first c cs).1.text ++ (first c cs).2 = c :: cs := by
  unfold first
  split
  · rfl
  split
  · unfold quoted
    have h := cs.takeWhile_append_dropWhile (p := (· ≠ '"'))
    split <;> rename_i heq <;> rw [heq] at h <;> simpa using h
  split
  · simp [number, fraction_append]
  split
  · simp [word]
  split
  · simp [comment]
  · unfold symbol
    split
    · rfl
    · split <;> rfl

/-- A piece starts with the first character of the text. -/
theorem head?_text (c : Char) (cs : List Char) : (first c cs).1.text.head? = some c := by
  unfold first
  split
  · rfl
  split
  · unfold quoted
    split <;> rfl
  split
  · rfl
  split
  · rfl
  split
  · rfl
  · unfold symbol
    split
    · rfl
    · split <;> rfl

/-- Cutting a piece off shortens the text. -/
theorem rest_length_le (c : Char) (cs : List Char) : (first c cs).2.length ≤ cs.length := by
  have h := congrArg List.length (text_append_rest c cs)
  have hne := head?_text c cs
  cases ht : (first c cs).1.text with
  | nil => simp [ht] at hne
  | cons d ds =>
    rw [ht] at h
    simp only [List.length_append, List.length_cons] at h
    omega

end Piece

end Lox
