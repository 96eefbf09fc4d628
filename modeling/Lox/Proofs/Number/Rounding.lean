import Mathlib.Tactic
import Lox.Number.Canonical
import Lox.Proofs.Number.Decimal

set_option autoImplicit false

/-! # Rounding to the nearest magnitude

Rounding a ratio gives the magnitude that is nearest to it (`Binary64.isNearest_iff`). Magnitudes
grow with their bits, in steps that are as wide as a unit of the binade. So rounding is monotone,
and with two numbers everything between them is rounded to the same magnitude
(`Binary64.IsNearest.between`).
-/

namespace Lox.Binary64

/-! ## Units -/

/-- The units of a magnitude, by its binade and its digits. The upper end of a binade may be written
as if it belonged to it. -/
theorem units_binade {exponent digits : Nat} (hle : digits ≤ 2 ^ 53)
    (hge : exponent = 0 ∨ 2 ^ 52 ≤ digits) :
    units (exponent * 2 ^ 52 + digits) = digits * 2 ^ exponent := by
  by_cases hfirst : exponent * 2 ^ 52 + digits < 2 ^ 53
  · obtain rfl : exponent = 0 := by omega
    rw [units, Nat.pow_eq, if_pos hfirst]
    omega
  · rw [units, Nat.pow_eq, Nat.pow_eq, if_neg hfirst]
    by_cases hend : digits = 2 ^ 53
    · have hmod : (exponent * 2 ^ 52 + digits) % 2 ^ 52 = 0 := by omega
      have hquotient : (exponent * 2 ^ 52 + digits) / 2 ^ 52 - 1 = exponent + 1 := by omega
      rw [hmod, hquotient, hend, Nat.pow_eq]
      ring
    · have hmod : (exponent * 2 ^ 52 + digits) % 2 ^ 52 + 2 ^ 52 = digits := by omega
      have hquotient : (exponent * 2 ^ 52 + digits) / 2 ^ 52 - 1 = exponent := by omega
      rw [hmod, hquotient, Nat.pow_eq]

/-- Every magnitude lies in a binade. -/
theorem exists_binade (bits : Nat) : ∃ exponent digits, bits = exponent * 2 ^ 52 + digits ∧
    digits < 2 ^ 53 ∧ (exponent = 0 ∨ 2 ^ 52 ≤ digits) := by
  by_cases h : bits < 2 ^ 53
  · exact ⟨0, bits, by omega, h, .inl rfl⟩
  · exact ⟨bits / 2 ^ 52 - 1, bits % 2 ^ 52 + 2 ^ 52, by omega, by omega, .inr (by omega)⟩

theorem units_lt_units_succ (bits : Nat) : units bits < units (bits + 1) := by
  obtain ⟨exponent, digits, rfl, hlt, hge⟩ := exists_binade bits
  rw [units_binade hlt.le hge, Nat.add_assoc, units_binade hlt (by omega)]
  exact Nat.mul_lt_mul_of_pos_right (Nat.lt_succ_self _) (by positivity)

theorem units_strictMono : StrictMono units := strictMono_nat_of_lt_succ units_lt_units_succ

section Steps

variable {exponent digits other : Nat}

/-- Inside a binade the magnitudes below are at least a step away. -/
theorem units_add_le (hle : digits ≤ 2 ^ 53) (hinside : exponent = 0 ∨ 2 ^ 52 < digits)
    (hlt : other < exponent * 2 ^ 52 + digits) :
    units other + 2 ^ exponent ≤ digits * 2 ^ exponent := by
  obtain ⟨below, rfl⟩ : ∃ below, digits = below + 1 := ⟨digits - 1, by omega⟩
  have hother : units other ≤ below * 2 ^ exponent := by
    rw [← units_binade (by omega) (by omega)]
    exact units_strictMono.monotone (by omega)
  calc units other + 2 ^ exponent ≤ below * 2 ^ exponent + 2 ^ exponent :=
        Nat.add_le_add_right hother _
    _ = (below + 1) * 2 ^ exponent := (Nat.succ_mul _ _).symm

/-- The magnitudes above are at least a step of the binade away. -/
theorem le_units (hle : digits ≤ 2 ^ 53) (hge : exponent = 0 ∨ 2 ^ 52 ≤ digits)
    (hgt : exponent * 2 ^ 52 + digits < other) : (digits + 1) * 2 ^ exponent ≤ units other := by
  have hnext : (digits + 1) * 2 ^ exponent ≤ units (exponent * 2 ^ 52 + (digits + 1)) := by
    rcases Nat.lt_or_eq_of_le hle with hinside | hend
    · rw [units_binade (by omega) (by omega)]
    · -- the next binade has steps twice as wide
      have hbinade : exponent * 2 ^ 52 + (digits + 1) =
          (exponent + 1) * 2 ^ 52 + (2 ^ 52 + 1) := by omega
      rw [hbinade, units_binade (by decide) (.inr (by decide)), hend, pow_succ]
      have hpow : 0 < 2 ^ exponent := by positivity
      omega
  exact hnext.trans (units_strictMono.monotone (by omega))

end Steps

/-! ## Rounding quotients -/

/-- The multiple that is chosen is no further away than half a step, and it is even if it is as far
as that. -/
theorem roundDiv_near (a : Nat) {b : Nat} (hb : 0 < b) :
    2 * (roundDiv a b * b) ≤ 2 * a + b ∧ 2 * a ≤ 2 * (roundDiv a b * b) + b ∧
      (2 * (roundDiv a b * b) = 2 * a + b ∨ 2 * a = 2 * (roundDiv a b * b) + b →
        roundDiv a b % 2 = 0) := by
  have hsplit := Nat.div_add_mod' a b
  have hmod := Nat.mod_lt a hb
  have hstep := Nat.succ_mul (a / b) b
  unfold roundDiv
  generalize a % b = rest at hsplit hmod ⊢
  generalize hquotient : a / b = quotient at hsplit hstep ⊢
  generalize hwhole : quotient * b = whole at hsplit hstep ⊢
  rw [Nat.succ_eq_add_one] at hstep
  split
  · rw [hwhole]
    omega
  · split
    · rw [hstep]
      omega
    · rcases Nat.mod_two_eq_zero_or_one quotient with heven | hodd
      · rw [heven, Nat.add_zero, hwhole]
        omega
      · rw [hodd, hstep]
        omega

/-- Rounding goes down or up by one. -/
theorem roundDiv_bounds (a b : Nat) : a / b ≤ roundDiv a b ∧ roundDiv a b ≤ a / b + 1 := by
  unfold roundDiv
  split
  · omega
  · split <;> omega

/-- The binade that is chosen for the ratio: its digits are those of the binade, and the ratio does
not lie below it. -/
theorem roundDiv_binade (a : Nat) {b : Nat} (hb : 0 < b) :
    roundDiv a (b * 2 ^ (Nat.log2 (a / b) - 52)) ≤ 2 ^ 53 ∧
      (Nat.log2 (a / b) - 52 = 0 ∨ 2 ^ 52 ≤ roundDiv a (b * 2 ^ (Nat.log2 (a / b) - 52)) ∧
        2 ^ 52 * (b * 2 ^ (Nat.log2 (a / b) - 52)) ≤ a) := by
  generalize hexponent : Nat.log2 (a / b) - 52 = exponent
  obtain ⟨hlow, hhigh⟩ := roundDiv_bounds a (b * 2 ^ exponent)
  rw [← Nat.div_div_eq_div_mul] at hlow hhigh
  have hlt : a / b < 2 ^ (exponent + 53) :=
    calc a / b < 2 ^ (Nat.log2 (a / b) + 1) := Nat.lt_log2_self
      _ ≤ 2 ^ (exponent + 53) := Nat.pow_le_pow_right (by decide) (by omega)
  have hquotient : a / b / 2 ^ exponent < 2 ^ 53 := by
    rw [Nat.div_lt_iff_lt_mul (by positivity), ← pow_add, Nat.add_comm]
    exact hlt
  refine ⟨by omega, ?_⟩
  by_cases hzero : exponent = 0
  · exact .inl hzero
  · right
    have hne : a / b ≠ 0 := by
      intro h
      rw [h] at hexponent
      exact hzero (by rw [← hexponent]; rfl)
    have hge : 2 ^ 52 * 2 ^ exponent ≤ a / b :=
      calc 2 ^ 52 * 2 ^ exponent = 2 ^ Nat.log2 (a / b) := by
            rw [← pow_add]
            congr 1
            omega
        _ ≤ a / b := Nat.log2_self_le hne
    have hle : 2 ^ 52 ≤ a / b / 2 ^ exponent := by
      rwa [Nat.le_div_iff_mul_le (by positivity)]
    refine ⟨by omega, ?_⟩
    calc 2 ^ 52 * (b * 2 ^ exponent) = 2 ^ 52 * 2 ^ exponent * b := by ring
      _ ≤ a := (Nat.le_div_iff_mul_le hb).mp hge

/-! ## The nearest magnitude -/

theorem value_strictMono : StrictMono value := fun _ _ h =>
  div_lt_div_of_pos_right (Nat.cast_lt.mpr (units_strictMono h)) (by positivity)

/-- How far a ratio is from a magnitude, as a whole number of parts of a unit. -/
def distance (a b bits : Nat) : Nat :=
  ((a * Nat.pow 2 subunitExponent : Nat) - (units bits * b : Nat) : ℤ).natAbs

theorem abs_sub_value (a : Nat) {b : Nat} (hb : 0 < b) (bits : Nat) :
    |(a / b : ℚ) - value bits| = distance a b bits / (b * 2 ^ subunitExponent) := by
  have hb' : (0 : ℚ) < b := Nat.cast_pos.mpr hb
  have hscale : (0 : ℚ) < 2 ^ subunitExponent := by positivity
  have hdiff : (a / b : ℚ) - value bits =
      ((a * Nat.pow 2 subunitExponent : Nat) - (units bits * b : Nat) : ℤ) /
        (b * 2 ^ subunitExponent) := by
    rw [value, div_sub_div _ _ hb'.ne' hscale.ne', Nat.pow_eq]
    push_cast
    ring
  rw [hdiff, abs_div, abs_of_pos (mul_pos hb' hscale), distance, Nat.cast_natAbs, Int.cast_abs]

/-- Rounding to a multiple of the unit of the binade gives the magnitude that is nearest, if the
magnitudes beyond the infinite one are counted as well. -/
theorem distance_binade {a b exponent digits : Nat}
    (hdigits : digits = roundDiv (a * Nat.pow 2 subunitExponent) (b * 2 ^ exponent))
    (hb : 0 < b) (hle : digits ≤ 2 ^ 53)
    (hge : exponent = 0 ∨ 2 ^ 52 ≤ digits ∧
      2 ^ 52 * (b * 2 ^ exponent) ≤ a * Nat.pow 2 subunitExponent) (other : Nat)
    (hne : other ≠ exponent * 2 ^ 52 + digits) :
    distance a b (exponent * 2 ^ 52 + digits) ≤ distance a b other ∧
      (distance a b (exponent * 2 ^ 52 + digits) = distance a b other →
        Even (exponent * 2 ^ 52 + digits)) := by
  obtain ⟨hnear, hnear', htie⟩ :=
    roundDiv_near (a * Nat.pow 2 subunitExponent) (b := b * 2 ^ exponent) (by positivity)
  rw [← hdigits] at hnear hnear' htie
  have hunits : units (exponent * 2 ^ 52 + digits) * b = digits * (b * 2 ^ exponent) := by
    rw [units_binade hle (hge.imp_right And.left)]
    ring
  have heven : digits % 2 = 0 → Even (exponent * 2 ^ 52 + digits) := fun h =>
    Nat.even_iff.mpr (by omega)
  unfold distance
  rw [hunits]
  rcases Nat.lt_or_gt_of_ne hne with hlt | hgt
  · by_cases hinside : exponent = 0 ∨ 2 ^ 52 < digits
    · have hbelow : units other * b + b * 2 ^ exponent ≤ digits * (b * 2 ^ exponent) :=
        calc units other * b + b * 2 ^ exponent
            = (units other + 2 ^ exponent) * b := by ring
          _ ≤ digits * 2 ^ exponent * b := Nat.mul_le_mul_right b (units_add_le hle hinside hlt)
          _ = digits * (b * 2 ^ exponent) := by ring
      generalize units other * b = below at hbelow ⊢
      generalize digits * (b * 2 ^ exponent) = here at *
      generalize b * 2 ^ exponent = step at *
      generalize a * Nat.pow 2 subunitExponent = scaled at *
      exact ⟨by omega, fun h => heven (htie (by omega))⟩
    · -- at the lower end of a binade the ratio is not smaller than the magnitude
      obtain ⟨-, hlow⟩ := hge.resolve_left fun h => hinside (.inl h)
      have hend : digits = 2 ^ 52 := by omega
      have hbelow : units other * b < digits * (b * 2 ^ exponent) := by
        rw [← hunits]
        exact Nat.mul_lt_mul_of_pos_right (units_strictMono hlt) hb
      rw [← hend] at hlow
      generalize units other * b = below at hbelow ⊢
      generalize digits * (b * 2 ^ exponent) = here at *
      generalize a * Nat.pow 2 subunitExponent = scaled at *
      exact ⟨by omega, fun h => absurd h (by omega)⟩
  · have habove : digits * (b * 2 ^ exponent) + b * 2 ^ exponent ≤ units other * b :=
      calc digits * (b * 2 ^ exponent) + b * 2 ^ exponent
          = (digits + 1) * 2 ^ exponent * b := by ring
        _ ≤ units other * b :=
          Nat.mul_le_mul_right b (le_units hle (hge.imp_right And.left) hgt)
    generalize units other * b = above at habove ⊢
    generalize digits * (b * 2 ^ exponent) = here at *
    generalize b * 2 ^ exponent = step at *
    generalize a * Nat.pow 2 subunitExponent = scaled at *
    exact ⟨by omega, fun h => heven (htie (by omega))⟩

theorem even_infinity : Even infinity := ⟨2047 * 2 ^ 51, by unfold infinity; norm_num⟩

/-- Rounding a ratio gives a magnitude that is nearest to it. -/
theorem isNearest_nearest (a : Nat) {b : Nat} (hb : 0 < b) : IsNearest (a / b) (nearest a b) := by
  obtain ⟨hle, hge⟩ := roundDiv_binade (a * Nat.pow 2 subunitExponent) hb
  have hnear := distance_binade rfl hb hle hge
  have hnearest : nearest a b = min infinity
      ((Nat.log2 (a * Nat.pow 2 subunitExponent / b) - 52) * 2 ^ 52 +
        roundDiv (a * Nat.pow 2 subunitExponent)
          (b * 2 ^ (Nat.log2 (a * Nat.pow 2 subunitExponent / b) - 52))) := rfl
  rw [hnearest]
  generalize (Nat.log2 (a * Nat.pow 2 subunitExponent / b) - 52) * 2 ^ 52 +
    roundDiv (a * Nat.pow 2 subunitExponent)
      (b * 2 ^ (Nat.log2 (a * Nat.pow 2 subunitExponent / b) - 52)) = bits at hnear ⊢
  have hscale : (0 : ℚ) < b * 2 ^ subunitExponent := by positivity
  have habs := abs_sub_value a hb
  rcases Nat.lt_or_ge infinity bits with hbeyond | hfits
  · -- the ratio lies beyond the infinite magnitude, so that all the others are further away
    rw [Nat.min_eq_left hbeyond.le]
    refine ⟨le_rfl, fun other hother => ?_, fun _ _ _ _ => even_infinity⟩
    rw [habs, habs]
    refine div_le_div_of_nonneg_right (Nat.cast_le.mpr ?_) hscale.le
    have hinfinity := (hnear infinity hbeyond.ne).1
    have hbits : units infinity * b < units bits * b :=
      Nat.mul_lt_mul_of_pos_right (units_strictMono hbeyond) hb
    have hunits : units other * b ≤ units infinity * b :=
      Nat.mul_le_mul_right b (units_strictMono.monotone hother)
    unfold distance at hinfinity ⊢
    omega
  · rw [Nat.min_eq_right hfits]
    refine ⟨hfits, fun other _ => ?_, fun other _ hne heq => ?_⟩
    · by_cases hne : other = bits
      · rw [hne]
      · rw [habs, habs]
        exact div_le_div_of_nonneg_right (Nat.cast_le.mpr (hnear other hne).1) hscale.le
    · rw [habs, habs, div_left_inj' hscale.ne', Nat.cast_inj] at heq
      exact (hnear other hne).2 heq

section Closer

variable {a b q : ℚ}

/-- The larger of two numbers is no further away than the smaller one from the middle on. -/
theorem abs_sub_le_abs_sub_iff (h : a < b) : |q - b| ≤ |q - a| ↔ a + b ≤ 2 * q := by
  rw [← sq_le_sq]
  constructor
  · intro hsq
    nlinarith
  · intro hle
    nlinarith

/-- The smaller one is no further away up to the middle. -/
theorem abs_sub_le_abs_sub_iff' (h : a < b) : |q - a| ≤ |q - b| ↔ 2 * q ≤ a + b := by
  have hneg := abs_sub_le_abs_sub_iff (q := -q) (neg_lt_neg h)
  rw [neg_sub_neg, neg_sub_neg, abs_sub_comm a, abs_sub_comm b] at hneg
  rw [hneg]
  constructor
  · intro hle
    linarith
  · intro hle
    linarith

end Closer

section Monotone

variable {q r s : ℚ} {m n : Nat}

/-- Rounding is monotone. -/
theorem IsNearest.mono (hm : IsNearest q m) (hn : IsNearest r n) (h : q ≤ r) : m ≤ n := by
  by_contra hnot
  have hlt := Nat.lt_of_not_le hnot
  have hvalue := value_strictMono hlt
  have hq := hm.closest n hn.le_infinity
  have hr := hn.closest m hm.le_infinity
  have hlow := (abs_sub_le_abs_sub_iff hvalue).mp hq
  have hhigh := (abs_sub_le_abs_sub_iff' hvalue).mp hr
  -- so both numbers are in the middle between the two magnitudes, which have to be even
  obtain rfl : q = r := by linarith
  obtain ⟨i, rfl⟩ := hm.even n hn.le_infinity hlt.ne (le_antisymm hq hr)
  obtain ⟨j, rfl⟩ := hn.even (i + i) hm.le_infinity hlt.ne' (le_antisymm hr hq)
  -- and the magnitude behind the smaller one is closer than the larger one
  have hnext := value_strictMono (show j + j < j + j + 1 by omega)
  have hnext' := value_strictMono (show j + j + 1 < i + i by omega)
  have hle : j + j + 1 ≤ infinity := Nat.le_trans (by omega) hm.le_infinity
  have hcloser := (abs_sub_le_abs_sub_iff hnext').mp (hm.closest (j + j + 1) hle)
  linarith

/-- No number is rounded to two magnitudes. -/
theorem IsNearest.unique (hm : IsNearest q m) (hn : IsNearest q n) : m = n :=
  Nat.le_antisymm (hm.mono hn le_rfl) (hn.mono hm le_rfl)

theorem isNearest_iff (a : Nat) {b : Nat} (hb : 0 < b) :
    IsNearest (a / b) m ↔ m = nearest a b :=
  ⟨fun h => h.unique (isNearest_nearest a hb), fun h => h ▸ isNearest_nearest a hb⟩

/-- What lies between two numbers that are rounded to the same magnitude is rounded to it too. -/
theorem IsNearest.between (hq : IsNearest q m) (hr : IsNearest r m) (hqs : q ≤ s) (hsr : s ≤ r)
    (hs : 0 ≤ s) : IsNearest s m := by
  have hratio : s = (s.num.toNat : ℚ) / (s.den : ℚ) := by
    have hnum : ((s.num.toNat : ℤ) : ℚ) = s.num := by
      rw [Int.toNat_of_nonneg (Rat.num_nonneg.mpr hs)]
    rw [← Int.cast_natCast, hnum, Rat.num_div_den]
  have hnearest := isNearest_nearest s.num.toNat s.den_pos
  rw [← hratio] at hnearest
  obtain rfl := Nat.le_antisymm (hq.mono hnearest hqs) (hnearest.mono hr hsr)
  exact hnearest

end Monotone

/-- A finite magnitude is the nearest to its value. -/
theorem isNearest_value {bits : Nat} (h : bits < infinity) : IsNearest (value bits) bits := by
  have hscale : ((Nat.pow 2 subunitExponent : Nat) : ℚ) = 2 ^ subunitExponent := by
    generalize subunitExponent = n
    exact Nat.cast_pow 2 n
  rw [value, ← hscale, isNearest_iff _ (two_pow_pos subunitExponent), nearest_units h]

end Lox.Binary64
