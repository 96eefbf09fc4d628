import Mathlib.Algebra.Order.Field.Rat
import Mathlib.Algebra.Order.Group.Abs
import Mathlib.Algebra.Group.Even
import Lox.Number.Binary64

set_option autoImplicit false

/-! # The canonical text of numbers

What the text of a number has to be, told without a way to find it. A decimal reads back as the
magnitude that is nearest to it (`Binary64.IsNearest`). Of the decimals that read back as the
magnitude of a number, the text shows one with the fewest significant digits, and of these the
closest to the number (`Numeral.IsShortest`). It is written without an exponent and without needless
zeros (`Numeral.IsPositional`), behind a minus sign if the number has the negative sign.
-/

namespace Lox

namespace Binary64

/-- The rational number that a magnitude is. The infinite magnitude stands for the power of two that
comes after the largest finite magnitude. -/
def value (bits : Nat) : ℚ := units bits / 2 ^ subunitExponent

/-- No magnitude is closer to the number, and of two that are equally close this is the one with
even bits. -/
structure IsNearest (q : ℚ) (bits : Nat) : Prop where
  le_infinity : bits ≤ infinity
  closest : ∀ other ≤ infinity, |q - value bits| ≤ |q - value other|
  even : ∀ other ≤ infinity, other ≠ bits → |q - value bits| = |q - value other| → Even bits

end Binary64

namespace Numeral

open Binary64 (IsNearest infinity value)

/-- The number is a decimal with `n` significant digits or fewer. -/
def HasDigits (n : Nat) (q : ℚ) : Prop := ∃ (digits : Nat) (exponent : ℤ),
  digits < 10 ^ n ∧ q = digits * 10 ^ exponent

/-- Of the decimals that read back as the magnitude, the number is one with the fewest significant
digits. Of those it is the closest to the magnitude, and of two equally close ones the larger. -/
structure IsShortest (bits : Nat) (q : ℚ) : Prop where
  isNearest : IsNearest q bits
  fewest : ∀ n r, IsNearest r bits → HasDigits n r → HasDigits n q
  closest : ∀ r, IsNearest r bits → (∀ n, HasDigits n q → HasDigits n r) →
    |value bits - q| ≤ |value bits - r|
  larger : ∀ r, IsNearest r bits → (∀ n, HasDigits n q → HasDigits n r) →
    |value bits - q| = |value bits - r| → r ≤ q

/-- The text is the decimal number in digits: a whole number as it is, any other number with a point
and digits behind it, the last of which is not zero. -/
inductive IsPositional : ℚ → List Char → Prop
  | whole (n : Nat) : IsPositional n (Nat.toDigits 10 n)
  | fraction (n : Nat) {ds : List Char} (hne : ds ≠ []) (hds : ∀ d ∈ ds, d.isDigit)
      (hlast : ds.getLast? ≠ some '0') :
      IsPositional (n + Nat.ofDigitChars 10 ds 0 / 10 ^ ds.length) (Nat.toDigits 10 n ++ '.' :: ds)

/-- The text of a magnitude. -/
inductive IsMagnitude : Nat → List Char → Prop
  | infinite : IsMagnitude infinity ['i', 'n', 'f']
  | finite {bits : Nat} {q : ℚ} {cs : List Char} (h : bits < infinity) (hq : IsShortest bits q)
      (hcs : IsPositional q cs) : IsMagnitude bits cs

/-- The text of a number: its magnitude, which is in the 63 low bits, behind a minus sign if the
highest bit is set. -/
inductive IsCanonical (x : Float) : String → Prop
  | nan (h : x.isNaN) : IsCanonical x "NaN"
  | positive {cs : List Char} (h : IsMagnitude x.toBits.toNat cs) : IsCanonical x (.ofList cs)
  | negative {bits : Nat} {cs : List Char} (hx : x.toBits.toNat = 2 ^ 63 + bits)
      (h : IsMagnitude bits cs) : IsCanonical x (.ofList ('-' :: cs))

end Numeral

end Lox
