import Mathlib.Data.List.TakeWhile
import Mathlib.Tactic
import Lox.Number.Numeral
import Lox.Proofs.Scan.Lexeme

set_option autoImplicit false

/-! # Magnitudes written and read again

Rounding depends on a ratio only (`Binary64.nearest_eq_of_ratio`), and a ratio that is a finite
magnitude is rounded to this magnitude (`Binary64.nearest_units`). So the digits that are chosen for
a magnitude read back as this magnitude (`Numeral.nearest_shortest`). Their text is digits with an
optional fraction, and it reads as the ratio that it was made of (`Numeral.read_positional`).
-/

namespace Lox

namespace Binary64

/-! ## Rounding -/

theorem roundDiv_mul_right (a b : Nat) {k : Nat} (hk : 0 < k) :
    roundDiv (a * k) (b * k) = roundDiv a b := by
  have hdiv : a * k / (b * k) = a / b := Nat.mul_div_mul_right a b hk
  have hmod : 2 * (a * k % (b * k)) = 2 * (a % b) * k := by
    rw [Nat.mul_mod_mul_right, Nat.mul_assoc]
  simp only [roundDiv, hdiv, hmod, Nat.mul_lt_mul_right hk]

theorem nearest_mul_right (a b : Nat) {k : Nat} (hk : 0 < k) :
    nearest (a * k) (b * k) = nearest a b := by
  have hscaled : a * k * Nat.pow 2 subunitExponent = a * Nat.pow 2 subunitExponent * k :=
    Nat.mul_right_comm ..
  have hquotient : a * Nat.pow 2 subunitExponent * k / (b * k) =
      a * Nat.pow 2 subunitExponent / b := Nat.mul_div_mul_right _ b hk
  simp only [nearest, hscaled, hquotient, Nat.mul_right_comm b k, roundDiv_mul_right _ _ hk]

/-- Rounding depends on the ratio only. -/
theorem nearest_eq_of_ratio {a b c d : Nat} (hb : 0 < b) (hd : 0 < d) (h : a * d = c * b) :
    nearest a b = nearest c d :=
  calc nearest a b
      = nearest (a * d) (b * d) := (nearest_mul_right a b hd).symm
    _ = nearest (c * b) (d * b) := by rw [h, Nat.mul_comm b d]
    _ = nearest c d := nearest_mul_right c d hb

/-- The units of a magnitude are at most 53 binary digits, moved to the left by the number of
binades below. -/
theorem units_eq (bits : Nat) : ∃ exponent digits, units bits = digits * 2 ^ exponent ∧
    (units bits).log2 - 52 = exponent ∧ bits = exponent * 2 ^ 52 + digits := by
  by_cases h : bits < 2 ^ 53
  · have hunits : units bits = bits := if_pos h
    have hlog : bits.log2 - 52 = 0 := by
      by_cases h₀ : bits = 0
      · subst h₀
        rfl
      · have hlt : bits.log2 < 53 := (Nat.log2_lt h₀).mpr h
        omega
    exact ⟨0, bits, by rw [hunits]; omega, by rw [hunits, hlog], by omega⟩
  · have hunits : units bits = (bits % 2 ^ 52 + 2 ^ 52) * 2 ^ (bits / 2 ^ 52 - 1) := if_neg h
    have hmod : bits % 2 ^ 52 < 2 ^ 52 := Nat.mod_lt _ (by decide)
    have hquotient : 2 ≤ bits / 2 ^ 52 := by omega
    have hlog : (units bits).log2 = 52 + (bits / 2 ^ 52 - 1) := by
      rw [hunits, Nat.log2_eq_iff (by positivity), Nat.add_right_comm, pow_add, pow_add]
      constructor
      · exact Nat.mul_le_mul_right _ (by omega)
      · exact Nat.mul_lt_mul_of_pos_right (by omega) (by positivity)
    exact ⟨_, _, hunits, by omega, by omega⟩

-- The powers of the definitions stand as applications of `Nat.pow`, so that those with large
-- exponents are not evaluated; in this form, the facts about powers are needed as well.
theorem two_pow_pos (n : Nat) : 0 < Nat.pow 2 n := Nat.two_pow_pos n

/-- A finite magnitude is the one nearest to itself. -/
theorem nearest_units {bits : Nat} (h : bits < infinity) :
    nearest (units bits) (Nat.pow 2 subunitExponent) = bits := by
  obtain ⟨exponent, digits, hunits, hlog, hbits⟩ := units_eq bits
  have hpos : 0 < Nat.pow 2 subunitExponent := two_pow_pos subunitExponent
  unfold nearest
  generalize Nat.pow 2 subunitExponent = scale at hpos ⊢
  have hquotient : units bits * scale / scale = units bits := Nat.mul_div_cancel _ hpos
  have hscaled : units bits * scale = digits * (scale * 2 ^ exponent) := by
    rw [hunits]
    ring
  have hround : roundDiv (units bits * scale) (scale * 2 ^ exponent) = digits := by
    rw [hscaled]
    exact roundDiv_mul_self digits (by positivity)
  simp only [hquotient, hlog, Nat.pow_eq, hround]
  rw [← hbits]
  exact Nat.min_eq_right (Nat.le_of_lt h)

end Binary64

namespace Numeral

open Binary64 (nearest infinity units subunitExponent two_pow_pos)

/-! ## The digits that are chosen -/

theorem ten_pow_pos (n : Nat) : 0 < Nat.pow 10 n := Nat.pow_pos (by decide)

theorem ten_pow_eq (n : Nat) : Nat.pow 10 n = Nat.pow 5 n * Nat.pow 2 n := Nat.mul_pow 5 2 n

theorem one_pos : 0 < one := by
  unfold one
  exact ten_pow_pos _

theorem one_dvd (n : Nat) : one ∣ n * Nat.pow 10 places := by
  unfold one
  exact Nat.dvd_mul_left _ _

/-- A finite magnitude reads back from its exact decimal. -/
theorem nearest_exact {bits : Nat} (h : bits < infinity) : nearest (exact bits) one = bits := by
  have hpos : 0 < Nat.pow 2 subunitExponent := two_pow_pos subunitExponent
  have hone : one = Nat.pow 5 places * Nat.pow 2 subunitExponent := by
    unfold one places
    exact ten_pow_eq _
  have hratio : exact bits * Nat.pow 2 subunitExponent = units bits * one := by
    rw [exact, hone, Nat.mul_assoc]
  rw [Binary64.nearest_eq_of_ratio one_pos hpos hratio, Binary64.nearest_units h]

theorem readsBack_of_onGrid? {bits grid candidate : Nat}
    (h : onGrid? bits grid = some candidate) : readsBack bits candidate := by
  rw [onGrid?] at h
  split at h
  · next hlower =>
    cases h
    exact (Bool.and_eq_true_iff.mp hlower).1
  · split at h
    · next hupper =>
      cases h
      exact hupper
    · cases h

/-- The digits that are chosen for a finite magnitude read back as this magnitude. -/
theorem nearest_shortest {bits : Nat} (h : bits < infinity) :
    nearest (shortest bits) one = bits := by
  have hback : readsBack bits (shortest bits) := by
    rw [shortest]
    generalize (Nat.toDigits 10 (exact bits)).length = digits
    cases hfind : (List.range digits).findSome? fun n =>
        onGrid? bits (Nat.pow 10 (digits - 1 - n)) with
    | none => exact beq_iff_eq.mpr (nearest_exact h)
    | some candidate =>
        obtain ⟨n, -, hn⟩ := List.exists_of_findSome?_eq_some hfind
        exact readsBack_of_onGrid? hn
  exact beq_iff_eq.mp hback

/-! ## Their text -/

section Fraction

variable {part n : Nat}

theorem digit_lt_ten (h : part < one) : part * 10 / one < 10 :=
  Nat.div_lt_of_lt_mul (by omega)

theorem isDigit_of_mem_fractionDigits (h : part < one) {c : Char}
    (hc : c ∈ fractionDigits part n) : c.isDigit := by
  induction n generalizing part with
  | zero => cases hc
  | succ n ih =>
      unfold fractionDigits at hc
      split at hc
      · cases hc
      · rcases List.mem_cons.mp hc with rfl | hc
        · rw [Nat.isDigit_digitChar]
          exact decide_eq_true (digit_lt_ten h)
        · exact ih (Nat.mod_lt _ one_pos) hc

/-- What is left behind the first digit has one digit less. -/
theorem one_dvd_rest (h : one ∣ part * 10 ^ (n + 1)) : one ∣ part * 10 % one * 10 ^ n := by
  have hsplit : part * 10 ^ (n + 1) =
      part * 10 / one * 10 ^ n * one + part * 10 % one * 10 ^ n :=
    calc part * 10 ^ (n + 1) = part * 10 * 10 ^ n := by ring
      _ = (part * 10 / one * one + part * 10 % one) * 10 ^ n := by rw [Nat.div_add_mod']
      _ = part * 10 / one * 10 ^ n * one + part * 10 % one * 10 ^ n := by ring
  rw [hsplit] at h
  exact (Nat.dvd_add_right (Nat.dvd_mul_left _ _)).mp h

/-- The digits of a fraction that has no more than `n` of them are the fraction. -/
theorem ofDigitChars_fractionDigits (h : part < one) (hn : one ∣ part * Nat.pow 10 n) :
    Nat.ofDigitChars 10 (fractionDigits part n) 0 * one =
      part * 10 ^ (fractionDigits part n).length := by
  rw [Nat.pow_eq] at hn
  induction n generalizing part with
  | zero =>
      rw [pow_zero, Nat.mul_one] at hn
      obtain rfl := Nat.eq_zero_of_dvd_of_lt hn h
      simp [fractionDigits]
  | succ n ih =>
      unfold fractionDigits
      split
      · next hpart =>
        subst hpart
        simp
      · have hdigit := digit_lt_ten h
        have hrest : part * 10 % one < one := Nat.mod_lt _ one_pos
        have hdvd := one_dvd_rest hn
        have hsplit : part * 10 = part * 10 / one * one + part * 10 % one :=
          (Nat.div_add_mod' _ _).symm
        generalize part * 10 / one = digit at hdigit hsplit ⊢
        generalize part * 10 % one = rest at hrest hdvd hsplit ⊢
        have hdigits := ih hrest hdvd
        rw [Nat.ofDigitChars_cons_digitChar_of_lt_ten hdigit, Nat.mul_zero, Nat.zero_add,
          Nat.ofDigitChars_eq_ofDigitChars_zero, List.length_cons]
        generalize (fractionDigits rest n).length = k at hdigits ⊢
        calc (10 ^ k * digit + Nat.ofDigitChars 10 (fractionDigits rest n) 0) * one
            = 10 ^ k * (digit * one) +
                Nat.ofDigitChars 10 (fractionDigits rest n) 0 * one := by ring
          _ = (digit * one + rest) * 10 ^ k := by
              rw [hdigits]
              ring
          _ = part * 10 ^ (k + 1) := by
              rw [← hsplit]
              ring

end Fraction

variable (decimal : Nat)

theorem isDigits_whole : Lexeme.IsDigits (Nat.toDigits 10 (decimal / one)) :=
  ⟨Nat.toDigits_ne_nil, fun _ => Nat.isDigit_of_mem_toDigits (by decide) (by decide)⟩

/-- The text of a decimal is digits with an optional fraction. -/
theorem isNumeral_positional : Lexeme.IsNumeral (positional decimal) := by
  have hpart : ∀ c ∈ fractionDigits (decimal % one) places, c.isDigit :=
    fun _ => isDigit_of_mem_fractionDigits (Nat.mod_lt _ one_pos)
  unfold positional
  split
  · exact .inl (isDigits_whole decimal)
  · next hne => exact .inr ⟨_, _, isDigits_whole decimal, ⟨hne, hpart⟩, rfl⟩

theorem parts_positional : parts (positional decimal) =
    (Nat.toDigits 10 (decimal / one), fractionDigits (decimal % one) places) := by
  have hwhole : ∀ c ∈ Nat.toDigits 10 (decimal / one), decide (c ≠ '.') := by
    intro c hc
    rw [decide_eq_true_eq]
    rintro rfl
    exact absurd ((isDigits_whole decimal).2 _ hc) (by decide)
  unfold positional parts
  split
  · next hnil =>
    rw [List.takeWhile_eq_self_iff.mpr hwhole, List.dropWhile_eq_nil_iff.mpr hwhole, hnil]
    rfl
  · rw [List.takeWhile_append_of_pos hwhole, List.dropWhile_append_of_pos hwhole]
    simp

/-- The text of a decimal reads as the magnitude nearest to it. -/
theorem read_positional :
    read (positional decimal) = .ofBits (.ofNat (nearest decimal one)) := by
  have hpart := ofDigitChars_fractionDigits (Nat.mod_lt decimal one_pos) (one_dvd _)
  unfold read
  rw [parts_positional]
  simp only [Nat.ofDigitChars_append, Nat.ofDigitChars_ten_toDigits]
  generalize fractionDigits (decimal % one) places = fraction at hpart ⊢
  have hratio : Nat.ofDigitChars 10 fraction (decimal / one) * one =
      decimal * Nat.pow 10 fraction.length := by
    rw [Nat.ofDigitChars_eq_ofDigitChars_zero, Nat.pow_eq]
    calc (10 ^ fraction.length * (decimal / one) + Nat.ofDigitChars 10 fraction 0) * one
        = 10 ^ fraction.length * (decimal / one * one) +
            Nat.ofDigitChars 10 fraction 0 * one := by ring
      _ = (decimal / one * one + decimal % one) * 10 ^ fraction.length := by
          rw [hpart]
          ring
      _ = decimal * 10 ^ fraction.length := by rw [Nat.div_add_mod']
  rw [Binary64.nearest_eq_of_ratio (ten_pow_pos _) one_pos hratio]

/-- The digits of a finite magnitude read as this magnitude. -/
theorem read_shortest {bits : Nat} (h : bits < infinity) :
    read (positional (shortest bits)) = .ofBits (.ofNat bits) := by
  rw [read_positional, nearest_shortest h]

end Numeral

end Lox
