import Lox.Number.Binary64

set_option autoImplicit false

/-! # Numerals

The written form of numbers. A number is printed with the fewest significant digits that read
back as the same number, always positionally: no exponent, no point in a whole number, a leading
zero before the point of a fraction. `NaN` has no sign, infinity is `inf`, and negative zero keeps
its minus sign.

All arithmetic is exact. Every finite magnitude is a whole number of units of `10 ^ (-1074)`, so a
candidate for the digits to print is a natural number in these units, and whether it reads back is
decided by the reader itself.
-/

namespace Lox.Numeral

/-! ## Reading -/

/-- Splits the text of a decimal at its point, which belongs to neither part. -/
def parts (text : List Char) : List Char × List Char :=
  (text.takeWhile (· ≠ '.'), (text.dropWhile (· ≠ '.')).drop 1)

/-- The number that decimal digits with an optional fraction denote, correctly rounded. -/
def read (text : List Char) : Float :=
  let (whole, fraction) := parts text
  let digits := Nat.ofDigitChars 10 (whole ++ fraction) 0
  .ofBits (.ofNat (Binary64.nearest digits (Nat.pow 10 fraction.length)))

/-- The number that a numeral in the form of `text` below denotes: a decimal with an optional
minus sign, `inf`, `-inf` or `NaN`. -/
def readSigned (text : String) : Float :=
  match text.toList with
  | ['N', 'a', 'N'] => 0 / 0
  | ['i', 'n', 'f'] => 1 / 0
  | ['-', 'i', 'n', 'f'] => -(1 / 0)
  | '-' :: digits => -read digits
  | digits => read digits

/-! ## Choosing the digits -/

/-- How many places after the point are enough to write any finite magnitude exactly. -/
def places : Nat := Binary64.subunitExponent

/-- One, counted in units of the last place. -/
def one : Nat := Nat.pow 10 places

/-- The finite magnitude with the bits `bits`, counted in units of the last place. -/
def exact (bits : Nat) : Nat := Binary64.units bits * Nat.pow 5 places

/-- Whether the decimal `candidate`, counted in units of the last place, reads back as the
magnitude with the bits `bits`. -/
def readsBack (bits candidate : Nat) : Bool := Binary64.nearest candidate one == bits

/-- The multiple of `grid` next to the magnitude that reads back, if there is one. Of the two
neighbours the closer one is taken, and of two equally close ones the larger. -/
def onGrid? (bits grid : Nat) : Option Nat :=
  let lower := exact bits / grid * grid
  let upper := lower + grid
  if readsBack bits lower && (2 * (exact bits - lower) < grid || !readsBack bits upper) then
    some lower
  else if readsBack bits upper then some upper
  else none

/-- The decimal with the fewest significant digits that reads back as the magnitude with the bits
`bits`, in units of the last place. The grids get finer from one significant digit on; the last
of them holds the magnitude itself. -/
def shortest (bits : Nat) : Nat :=
  let digits := (Nat.toDigits 10 (exact bits)).length
  ((List.range digits).findSome? fun n =>
    onGrid? bits (Nat.pow 10 (digits - 1 - n))).getD (exact bits)

/-! ## Writing -/

/-- The digits after the point of a fraction `part / one`, at most `n` of them, without zeros at
the end. -/
def fractionDigits (part : Nat) : Nat → List Char
  | 0 => []
  | n + 1 =>
    if part = 0 then []
    else Nat.digitChar (part * 10 / one) :: fractionDigits (part * 10 % one) n

/-- The text of a decimal that is counted in units of the last place. -/
def positional (decimal : Nat) : List Char :=
  let whole := Nat.toDigits 10 (decimal / one)
  match fractionDigits (decimal % one) places with
  | [] => whole
  | fraction => whole ++ '.' :: fraction

/-- The text of the magnitude with the bits `bits`. -/
def magnitudeText (bits : Nat) : List Char :=
  if bits = Binary64.infinity then "inf".toList else positional (shortest bits)

/-- The text of a number. -/
def text (x : Float) : String :=
  let bits := x.toBits.toNat % Nat.pow 2 63
  if Binary64.infinity < bits then "NaN"
  else if Nat.pow 2 63 ≤ x.toBits.toNat then .ofList ('-' :: magnitudeText bits)
  else .ofList (magnitudeText bits)

end Lox.Numeral
