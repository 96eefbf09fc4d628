import Lox.Token.Piece

set_option autoImplicit false

/-! # Lexemes

The texts that are tokens, as a language: for each kind, the texts that a token of this kind can
be read from. The texts of blanks and comments are given in the same way. Nothing here says where
in a source a lexeme ends.
-/

namespace Lox

namespace Lexeme

open Token (Kind)

/-- The lexemes of punctuation and operators. -/
def symbols : List (String × Kind) :=
  [("(", .leftParen), (")", .rightParen), ("\x7b", .leftBrace), ("\x7d", .rightBrace),
   (",", .comma), (".", .dot), ("-", .minus), ("+", .plus), (";", .semicolon), ("/", .slash),
   ("*", .star), ("!", .bang), ("!=", .bangEqual), ("=", .equal), ("==", .equalEqual),
   (">", .greater), (">=", .greaterEqual), ("<", .less), ("<=", .lessEqual)]

/-- One or more decimal digits. -/
def IsDigits (cs : List Char) : Prop := cs ≠ [] ∧ ∀ c ∈ cs, c.isDigit

/-- A letter or underscore, and then letters, underscores and digits. -/
inductive IsWord : List Char → Prop
  | mk {c : Char} {cs : List Char} (hc : c.isAlpha ∨ c = '_')
      (hcs : ∀ d ∈ cs, d.isAlpha ∨ d.isDigit ∨ d = '_') : IsWord (c :: cs)

end Lexeme

/-- `Lexeme kind cs`: the text `cs` is a token of the kind `kind`. -/
inductive Lexeme : Token.Kind → List Char → Prop
  | symbol {text : String} {kind : Token.Kind} (h : (text, kind) ∈ Lexeme.symbols) :
      Lexeme kind text.toList
  | string {body : List Char} (h : '"' ∉ body) : Lexeme .string ('"' :: (body ++ ['"']))
  | whole {cs : List Char} (h : Lexeme.IsDigits cs) : Lexeme .number cs
  | fraction {cs ds : List Char} (h : Lexeme.IsDigits cs) (h' : Lexeme.IsDigits ds) :
      Lexeme .number (cs ++ '.' :: ds)
  | keyword {word : String} {kind : Token.Kind} (h : (word, kind) ∈ Token.Kind.keywords) :
      Lexeme kind word.toList
  | identifier {cs : List Char} (h : Lexeme.IsWord cs)
      (hk : ∀ entry ∈ Token.Kind.keywords, entry.1 ≠ .ofList cs) : Lexeme .identifier cs

namespace Lexeme

/-- The texts that separate tokens: single blanks. -/
def IsBlank (cs : List Char) : Prop := cs ∈ [[' '], ['\t'], ['\r'], ['\n']]

/-- The texts of comments: a double slash and what follows on the same line. -/
inductive IsComment : List Char → Prop
  | mk {cs : List Char} (h : '\n' ∉ cs) : IsComment ('/' :: '/' :: cs)

end Lexeme

end Lox
