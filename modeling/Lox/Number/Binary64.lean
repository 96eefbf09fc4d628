set_option autoImplicit false

/-! # Magnitudes of doubles in exact arithmetic

A double is a sign and a magnitude, and a magnitude is written as its 63 low bits. Every finite
magnitude is a whole number of units of `2 ^ (-1074)`; `units` gives that number. In the other
direction `nearest a b` is the magnitude closest to the ratio `a / b`, where a tie goes to the
even neighbour and everything beyond the largest finite magnitude becomes infinity.

The bits of a magnitude grow with the magnitude. Below `2 ^ 53` they are the number of units
itself; from there on each binade of `2 ^ 52` bit patterns has units twice as large as the one
before, which is the factor `2 ^ exponent` below.
-/

namespace Lox.Binary64

/-- The smallest positive magnitude is `2 ^ (-subunitExponent)`. -/
def subunitExponent : Nat := 1074

/-- The bits of the infinite magnitude; the finite ones have smaller bits, NaN has larger bits. -/
def infinity : Nat := 2047 * Nat.pow 2 52

/-- The finite magnitude with the bits `bits`, counted in units of `2 ^ (-1074)`. -/
def units (bits : Nat) : Nat :=
  if bits < Nat.pow 2 53 then bits
  else (bits % Nat.pow 2 52 + Nat.pow 2 52) * Nat.pow 2 (bits / Nat.pow 2 52 - 1)

/-- The whole number closest to `a / b`; of two equally close ones the even one. -/
def roundDiv (a b : Nat) : Nat :=
  if 2 * (a % b) < b then a / b
  else if b < 2 * (a % b) then a / b + 1
  else a / b + a / b % 2

/-- The bits of the magnitude closest to `a / b`. The exponent is chosen so that the rounded
quotient has at most 53 digits in base two; when rounding carries it to `2 ^ 53`, the sum below
is the first bit pattern of the next binade, as it should be. -/
def nearest (a b : Nat) : Nat :=
  let scaled := a * Nat.pow 2 subunitExponent
  let exponent := Nat.log2 (scaled / b) - 52
  min infinity (exponent * Nat.pow 2 52 + roundDiv scaled (b * Nat.pow 2 exponent))

/-! ## Rounding -/

/-- A ratio that is a whole number is not changed by rounding. -/
theorem roundDiv_mul_self (n : Nat) {b : Nat} (hb : 0 < b) : roundDiv (n * b) b = n := by
  simp [roundDiv, hb]

end Lox.Binary64
