import Lox.Syntax.Error

set_option autoImplicit false

/-! # What a rule makes of its tokens

A rule of the grammar either accepts the front of a list of tokens, or rejects the list at some
token. In both cases it tells where it stopped, as the rest of the list, and what faults it has
reported on the way. The rest is tied to a bound, so that a rule that calls another on the rest
is seen to come to an end.
-/

namespace Lox

/-- The tokens behind the first one are within the bound of the whole list. -/
theorem length_le_cons (t : Token) (rest : List Token) : rest.length ≤ (t :: rest).length :=
  Nat.le_succ _

/-- A shorter rest is within the bound of the whole list. -/
theorem le_of_shorter {ts rest : List Token} (h : rest.length < ts.length) :
    rest.length ≤ ts.length :=
  Nat.le_of_lt h

/-- The outcome of a rule on at most `n` tokens. -/
inductive Parsed (α : Type) (n : Nat) where
  /-- The tokens before `rest` make `value`. -/
  | accept (value : α) (rest : List Token) (reports : List ParseError) (shorter : rest.length < n)
  /-- Something else than the first token of `rest` is demanded in its place. -/
  | reject (missing : Expected) (rest : List Token) (reports : List ParseError)
      (noLonger : rest.length ≤ n)

namespace Parsed

variable {α β : Type} {m n : Nat}

/-- Loosens the bound. -/
def within (h : m ≤ n) : Parsed α m → Parsed α n
  | accept value rest reports shorter => accept value rest reports (Nat.lt_of_lt_of_le shorter h)
  | reject missing rest reports noLonger => reject missing rest reports (Nat.le_trans noLonger h)

/-- Puts faults reported earlier in front. -/
def after (earlier : List ParseError) : Parsed α n → Parsed α n
  | accept value rest reports shorter => accept value rest (earlier ++ reports) shorter
  | reject missing rest reports noLonger => reject missing rest (earlier ++ reports) noLonger

/-- Makes something else of the accepted tokens. -/
def map (f : α → β) : Parsed α n → Parsed β n
  | accept value rest reports shorter => accept (f value) rest reports shorter
  | reject missing rest reports noLonger => reject missing rest reports noLonger

/-- Goes on with the rest after acceptance. -/
def andThen (p : Parsed α n) (next : α → (rest : List Token) → rest.length < n → Parsed β n) :
    Parsed β n :=
  match p with
  | accept value rest reports shorter => (next value rest shorter).after reports
  | reject missing rest reports noLonger => reject missing rest reports noLonger

end Parsed

/-- Accepts one token of the kind `kind`. -/
def expect (kind : Token.Kind) (missing : Expected) (ts : List Token) : Parsed Token ts.length :=
  match ts with
  | [] => .reject missing [] [] (Nat.le_refl _)
  | t :: rest =>
    if t.kind = kind then .accept t rest [] (Nat.lt_succ_self _)
    else .reject missing (t :: rest) [] (Nat.le_refl _)

end Lox
