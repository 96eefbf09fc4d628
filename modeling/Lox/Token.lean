set_option autoImplicit false

/-! # Tokens

The vocabulary of the language: the kinds of token, and a token as a kind with the text it was
read from, its literal value if it has one, and its line. Lines are counted from one.
-/

namespace Lox

namespace Token

/-- The kinds of token. The kinds of the reserved words start with `kw`. -/
inductive Kind where
  | leftParen
  | rightParen
  | leftBrace
  | rightBrace
  | comma
  | dot
  | minus
  | plus
  | semicolon
  | slash
  | star
  | bang
  | bangEqual
  | equal
  | equalEqual
  | greater
  | greaterEqual
  | less
  | lessEqual
  | identifier
  | string
  | number
  | kwAnd
  | kwClass
  | kwElse
  | kwFalse
  | kwFun
  | kwFor
  | kwIf
  | kwNil
  | kwOr
  | kwPrint
  | kwReturn
  | kwSuper
  | kwThis
  | kwTrue
  | kwVar
  | kwWhile
  | eof
deriving DecidableEq, Repr

namespace Kind

/-- The reserved words. -/
def keywords : List (String × Kind) :=
  [("and", kwAnd), ("class", kwClass), ("else", kwElse), ("false", kwFalse), ("for", kwFor),
   ("fun", kwFun), ("if", kwIf), ("nil", kwNil), ("or", kwOr), ("print", kwPrint),
   ("return", kwReturn), ("super", kwSuper), ("this", kwThis), ("true", kwTrue), ("var", kwVar),
   ("while", kwWhile)]

/-- The kind of a word: that of a reserved word, or an identifier. -/
def ofWord (word : String) : Kind := (keywords.lookup word).getD identifier

/-- The kinds that start a declaration or a statement with a word of its own. -/
def startsStatement : Kind → Bool
  | kwClass | kwFun | kwVar | kwFor | kwIf | kwWhile | kwPrint | kwReturn => true
  | _ => false

end Kind

/-- The value carried by a string or number token. -/
inductive Literal where
  | string (text : String)
  | number (value : Float)
deriving DecidableEq

end Token

/-- A token. -/
structure Token where
  kind : Token.Kind
  lexeme : String
  literal : Option Token.Literal
  line : Nat
deriving DecidableEq

namespace Token

/-- The token that stands for the end of the source, on line `line`. -/
def endOn (line : Nat) : Token := ⟨.eof, "", none, line⟩

end Token

end Lox
