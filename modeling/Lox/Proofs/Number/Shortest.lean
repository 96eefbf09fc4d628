import Mathlib.Tactic
import Lox.Proofs.Number.Rounding

set_option autoImplicit false

/-! # The shortest decimal

The digits that are chosen for a magnitude are the shortest decimal that reads back as it
(`Numeral.isShortest_shortest`), and there is only one (`Numeral.IsShortest.unique`). A decimal with
as few digits as a grid admits never lies strictly between the two neighbours of the magnitude on
this grid. So it is not closer than the neighbour on its side, and if it reads back, so does this
neighbour.
-/

namespace Lox.Numeral

open Binary64 (nearest infinity units value IsNearest isNearest_iff isNearest_value)

/-! ## Decimals -/

theorem HasDigits.mono {n m : Nat} {q : ℚ} (h : HasDigits n q) (hle : n ≤ m) : HasDigits m q := by
  obtain ⟨digits, exponent, hlt, hq⟩ := h
  exact ⟨digits, exponent, hlt.trans_le (Nat.pow_le_pow_right (by decide) hle), hq⟩

theorem hasDigits_zero (n : Nat) : HasDigits n 0 := ⟨0, 0, by positivity, by simp⟩

theorem eq_zero_of_hasDigits_zero {q : ℚ} (h : HasDigits 0 q) : q = 0 := by
  obtain ⟨digits, exponent, hlt, rfl⟩ := h
  obtain rfl : digits = 0 := by simpa using hlt
  simp

theorem HasDigits.nonneg {n : Nat} {q : ℚ} (h : HasDigits n q) : 0 ≤ q := by
  obtain ⟨digits, exponent, -, rfl⟩ := h
  positivity

/-- No two numbers are the shortest decimal of a magnitude. -/
theorem IsShortest.unique {bits : Nat} {q r : ℚ} (hq : IsShortest bits q)
    (hr : IsShortest bits r) : q = r := by
  have hqr : ∀ n, HasDigits n q → HasDigits n r := fun n => hr.fewest n q hq.isNearest
  have hrq : ∀ n, HasDigits n r → HasDigits n q := fun n => hq.fewest n r hr.isNearest
  have heq : |value bits - q| = |value bits - r| :=
    le_antisymm (hq.closest r hr.isNearest hqr) (hr.closest q hq.isNearest hrq)
  exact le_antisymm (hr.larger q hq.isNearest hrq heq.symm) (hq.larger r hr.isNearest hqr heq)

/-! ## Units of the last place -/

/-- A decimal that is counted in units of the last place. -/
def placed (decimal : Nat) : ℚ := decimal / one

theorem one_pos_rat : (0 : ℚ) < one := Nat.cast_pos.mpr one_pos

theorem placed_le_placed {m n : Nat} : placed m ≤ placed n ↔ m ≤ n := by
  rw [placed, placed, div_le_div_iff_of_pos_right one_pos_rat, Nat.cast_le]

/-- A decimal reads back as the magnitude that is nearest to it. -/
theorem readsBack_iff {bits decimal : Nat} :
    readsBack bits decimal ↔ IsNearest (placed decimal) bits := by
  rw [placed, isNearest_iff _ one_pos, readsBack, beq_iff_eq]
  exact eq_comm

theorem value_eq_placed (bits : Nat) : value bits = placed (exact bits) := by
  have hone : (one : ℚ) = 5 ^ places * 2 ^ places := by
    unfold one
    generalize places = n
    rw [Nat.pow_eq, Nat.cast_pow, Nat.cast_ofNat, ← mul_pow]
    norm_num
  have hscale : (Nat.pow 5 places : ℚ) = 5 ^ places := by
    generalize places = n
    rw [Nat.pow_eq, Nat.cast_pow, Nat.cast_ofNat]
  rw [value, placed, exact, Nat.cast_mul, hscale, hone, mul_comm,
    mul_div_mul_left _ _ (by positivity)]
  rfl

theorem one_eq_zpow : (one : ℚ) = 10 ^ (places : ℤ) := by
  unfold one
  generalize places = n
  rw [Nat.pow_eq, Nat.cast_pow, Nat.cast_ofNat, zpow_natCast]

/-- A digit and the zeros behind it, in units of the last place. -/
theorem placed_eq_zpow (digits zeros : Nat) :
    placed (digits * Nat.pow 10 zeros) = digits * 10 ^ ((zeros : ℤ) - places) := by
  rw [placed, one_eq_zpow, zpow_sub₀ (by norm_num), zpow_natCast, zpow_natCast, Nat.pow_eq,
    Nat.cast_mul, Nat.cast_pow, Nat.cast_ofNat, mul_div_assoc]

theorem hasDigits_placed {n digits : Nat} (h : digits < 10 ^ n) (zeros : Nat) :
    HasDigits n (placed (digits * Nat.pow 10 zeros)) :=
  ⟨digits, zeros - places, h, placed_eq_zpow digits zeros⟩

/-! ## Neighbours on a grid -/

/-- How far apart the decimals with `n + 1` digits are, in front of `digits` digits in all. -/
def step (digits n : Nat) : Nat := Nat.pow 10 (digits - 1 - n)

theorem step_pos (digits n : Nat) : 0 < step digits n := ten_pow_pos _

/-- The largest multiple of the grid that is not larger than the number. -/
def lower (number grid : Nat) : Nat := number / grid * grid

/-- The smallest multiple of the grid that is larger than the number. -/
def upper (number grid : Nat) : Nat := lower number grid + grid

theorem lower_le (number grid : Nat) : lower number grid ≤ number := Nat.div_mul_le_self ..

theorem lt_upper (number : Nat) {grid : Nat} (hgrid : 0 < grid) : number < upper number grid :=
  Nat.lt_div_mul_add hgrid

theorem upper_eq (number grid : Nat) : upper number grid = (number / grid + 1) * grid :=
  (Nat.succ_mul _ _).symm

section Grid

variable {number digits n : Nat} {r : ℚ}

theorem pow_mul_step (hn : n < digits) : 10 ^ (n + 1) * step digits n = 10 ^ digits := by
  rw [step, Nat.pow_eq, ← pow_add]
  congr 1
  omega

/-- A number with `digits` digits has `n + 1` digits on the grid. -/
theorem div_step_lt (hhigh : number < 10 ^ digits) (hn : n < digits) :
    number / step digits n < 10 ^ (n + 1) := by
  rwa [Nat.div_lt_iff_lt_mul (step_pos _ _), pow_mul_step hn]

theorem hasDigits_lower (hhigh : number < 10 ^ digits) (hn : n < digits) :
    HasDigits (n + 1) (placed (lower number (step digits n))) :=
  hasDigits_placed (div_step_lt hhigh hn) _

theorem hasDigits_upper (hhigh : number < 10 ^ digits) (hn : n < digits) :
    HasDigits (n + 1) (placed (upper number (step digits n))) := by
  rw [upper_eq]
  rcases Nat.lt_or_eq_of_le (div_step_lt hhigh hn) with hless | hcarry
  · exact hasDigits_placed hless _
  · -- the upper neighbour is a power of ten, which has one digit
    have hpower : (number / step digits n + 1) * step digits n = 1 * Nat.pow 10 digits := by
      rw [← Nat.succ_eq_add_one, hcarry, pow_mul_step hn, one_mul, Nat.pow_eq]
    rw [hpower]
    exact (hasDigits_placed (by norm_num : 1 < 10 ^ 1) digits).mono (by omega)

/-- No decimal with `n + 1` digits lies between the neighbours. -/
theorem le_lower_or_upper_le (hlow : 10 ^ (digits - 1) ≤ number) (hn : n < digits)
    (hr : HasDigits (n + 1) r) :
    r ≤ placed (lower number (step digits n)) ∨ placed (upper number (step digits n)) ≤ r := by
  obtain ⟨d, exponent, hd, rfl⟩ := hr
  by_cases hgrid : ((digits - 1 - n : Nat) : ℤ) ≤ exponent + places
  · -- the decimal lies on the grid
    obtain ⟨zeros, hzeros⟩ := Int.eq_ofNat_of_zero_le (Int.sub_nonneg_of_le hgrid)
    have hplaced : (d : ℚ) * 10 ^ exponent = placed (d * 10 ^ zeros * step digits n) := by
      rw [step, placed_eq_zpow, Nat.cast_mul, Nat.cast_pow, Nat.cast_ofNat, mul_assoc,
        ← zpow_natCast, ← zpow_add₀ (by norm_num)]
      congr 2
      omega
    rw [hplaced, placed_le_placed, placed_le_placed, upper_eq]
    rcases Nat.lt_or_ge (number / step digits n) (d * 10 ^ zeros) with hlt | hge
    · exact .inr (Nat.mul_le_mul_right _ hlt)
    · exact .inl (Nat.mul_le_mul_right _ hge)
  · -- the decimal is smaller than the smallest number with as many places
    left
    have hpower : 10 ^ n * step digits n = 10 ^ (digits - 1) := by
      rw [step, Nat.pow_eq, ← pow_add]
      congr 1
      omega
    have hle : 10 ^ n * step digits n ≤ lower number (step digits n) := by
      refine Nat.mul_le_mul_right _ ?_
      rw [Nat.le_div_iff_mul_le (step_pos _ _), hpower]
      exact hlow
    refine le_trans ?_ (placed_le_placed.mpr hle)
    have hd' : (d : ℚ) ≤ 10 ^ (n + 1) := by exact_mod_cast hd.le
    rw [step, placed_eq_zpow]
    calc (d : ℚ) * 10 ^ exponent
        ≤ 10 ^ (n + 1) * 10 ^ exponent := mul_le_mul_of_nonneg_right hd' (by positivity)
      _ = 10 ^ ((n + 1 : ℤ) + exponent) := by
          rw [zpow_add₀ (by norm_num)]
          norm_cast
      _ ≤ 10 ^ ((n : ℤ) + ((digits - 1 - n : Nat) - places : ℤ)) :=
          zpow_le_zpow_right₀ (by norm_num) (by omega)
      _ = (10 ^ n : Nat) * 10 ^ (((digits - 1 - n : Nat) : ℤ) - places) := by
          rw [zpow_add₀ (by norm_num)]
          norm_cast

/-- Whether the number lies below the middle between its neighbours. -/
theorem below_middle_iff (number grid : Nat) : 2 * (number - lower number grid) < grid ↔
    2 * placed number < placed (lower number grid) + placed (upper number grid) := by
  have hle := lower_le number grid
  rw [placed, placed, placed, ← add_div, ← mul_div_assoc, div_lt_div_iff_of_pos_right one_pos_rat]
  norm_cast
  rw [upper]
  omega

end Grid

/-! ## The choice on a grid -/

/-- Which neighbour is chosen, and when none is. -/
theorem onGrid?_cases (bits grid : Nat) :
    (onGrid? bits grid = some (lower (exact bits) grid) ∧
      readsBack bits (lower (exact bits) grid) ∧
      (readsBack bits (upper (exact bits) grid) →
        2 * (exact bits - lower (exact bits) grid) < grid)) ∨
    (onGrid? bits grid = some (upper (exact bits) grid) ∧
      readsBack bits (upper (exact bits) grid) ∧
      (readsBack bits (lower (exact bits) grid) →
        grid ≤ 2 * (exact bits - lower (exact bits) grid))) ∨
    (onGrid? bits grid = none ∧ ¬readsBack bits (lower (exact bits) grid) ∧
      ¬readsBack bits (upper (exact bits) grid)) := by
  have hchoice : onGrid? bits grid =
      if readsBack bits (lower (exact bits) grid) &&
          (2 * (exact bits - lower (exact bits) grid) < grid ||
            !readsBack bits (upper (exact bits) grid)) then
        some (lower (exact bits) grid)
      else if readsBack bits (upper (exact bits) grid) then some (upper (exact bits) grid)
      else none := rfl
  rw [hchoice]
  split
  · next h =>
    obtain ⟨hlower, hor⟩ := Bool.and_eq_true_iff.mp h
    exact .inl ⟨rfl, hlower, fun hupper => by simpa [hupper] using hor⟩
  · next h =>
    right
    split
    · next hupper => exact .inl ⟨rfl, hupper, fun hlower => by simpa [hlower, hupper] using h⟩
    · next hupper => exact .inr ⟨rfl, fun hlower => h (by simp [hlower, hupper]), hupper⟩

section Choice

variable {bits digits n : Nat} {r : ℚ}

theorem isNearest_exact (h : bits < infinity) : IsNearest (placed (exact bits)) bits := by
  rw [← value_eq_placed]
  exact isNearest_value h

/-- If a decimal with `n + 1` digits reads back, then so does the neighbour on its side. -/
theorem readsBack_neighbour (hfinite : bits < infinity) (hlow : 10 ^ (digits - 1) ≤ exact bits)
    (hn : n < digits) (hr : HasDigits (n + 1) r) (hback : IsNearest r bits) :
    (r ≤ placed (lower (exact bits) (step digits n)) ∧
      readsBack bits (lower (exact bits) (step digits n))) ∨
    (placed (upper (exact bits) (step digits n)) ≤ r ∧
      readsBack bits (upper (exact bits) (step digits n))) := by
  have hexact := isNearest_exact hfinite
  rcases le_lower_or_upper_le hlow hn hr with hle | hle
  · exact .inl ⟨hle, readsBack_iff.mpr (hback.between hexact hle
      (placed_le_placed.mpr (lower_le _ _)) (hr.nonneg.trans hle))⟩
  · have hupper : placed (exact bits) ≤ placed (upper (exact bits) (step digits n)) :=
      placed_le_placed.mpr (lt_upper _ (step_pos _ _)).le
    exact .inr ⟨hle, readsBack_iff.mpr (hexact.between hback hupper hle
      ((div_nonneg (Nat.cast_nonneg _) one_pos_rat.le).trans hupper))⟩

/-- On the grid nothing is chosen only if no decimal with as many digits reads back. -/
theorem not_hasDigits_of_onGrid? (hfinite : bits < infinity)
    (hlow : 10 ^ (digits - 1) ≤ exact bits) (hn : n < digits)
    (h : onGrid? bits (step digits n) = none) (hback : IsNearest r bits) :
    ¬HasDigits (n + 1) r := by
  intro hr
  rcases onGrid?_cases bits (step digits n) with ⟨hsome, -⟩ | ⟨hsome, -⟩ | ⟨-, hlower, hupper⟩
  · cases h.symm.trans hsome
  · cases h.symm.trans hsome
  · rcases readsBack_neighbour hfinite hlow hn hr hback with ⟨-, hneighbour⟩ | ⟨-, hneighbour⟩
    · exact hlower hneighbour
    · exact hupper hneighbour

/-- What is chosen on the grid reads back, has no more digits than the grid admits, and is the
closest of the decimals that do; of two equally close ones it is the larger. -/
theorem closest_of_onGrid? {decimal : Nat} (hfinite : bits < infinity)
    (hlow : 10 ^ (digits - 1) ≤ exact bits) (hhigh : exact bits < 10 ^ digits) (hn : n < digits)
    (h : onGrid? bits (step digits n) = some decimal) :
    IsNearest (placed decimal) bits ∧ HasDigits (n + 1) (placed decimal) ∧
      ∀ r, IsNearest r bits → HasDigits (n + 1) r →
        |value bits - placed decimal| ≤ |value bits - r| ∧
          (|value bits - placed decimal| = |value bits - r| → r ≤ placed decimal) := by
  have hle : placed (lower (exact bits) (step digits n)) ≤ value bits := by
    rw [value_eq_placed, placed_le_placed]
    exact lower_le _ _
  have hge : value bits ≤ placed (upper (exact bits) (step digits n)) := by
    rw [value_eq_placed, placed_le_placed]
    exact (lt_upper _ (step_pos _ _)).le
  have hmiddle := below_middle_iff (exact bits) (step digits n)
  rw [← value_eq_placed] at hmiddle
  have hneighbour := fun r hback hr => readsBack_neighbour (r := r) hfinite hlow hn hr hback
  rcases onGrid?_cases bits (step digits n) with ⟨hsome, hreads, hless⟩ | ⟨hsome, hreads, hless⟩ |
      ⟨hnone, -⟩
  · obtain rfl := Option.some.inj (hsome.symm.trans h)
    refine ⟨readsBack_iff.mp hreads, hasDigits_lower hhigh hn, fun r hback hr => ?_⟩
    rw [abs_of_nonneg (sub_nonneg.mpr hle)]
    rcases hneighbour r hback hr with ⟨hr, -⟩ | ⟨hr, hother⟩
    · rw [abs_of_nonneg (by linarith)]
      exact ⟨by linarith, fun heq => by linarith⟩
    · have hbelow := hmiddle.mp (hless hother)
      rw [abs_of_nonpos (by linarith)]
      exact ⟨by linarith, fun heq => by linarith⟩
  · obtain rfl := Option.some.inj (hsome.symm.trans h)
    refine ⟨readsBack_iff.mp hreads, hasDigits_upper hhigh hn, fun r hback hr => ?_⟩
    rw [abs_of_nonpos (sub_nonpos.mpr hge)]
    rcases hneighbour r hback hr with ⟨hr, hother⟩ | ⟨hr, -⟩
    · have habove := not_lt.mp (hmiddle.not.mp (Nat.not_lt.mpr (hless hother)))
      rw [abs_of_nonneg (by linarith)]
      exact ⟨by linarith, fun heq => by linarith⟩
    · rw [abs_of_nonpos (by linarith)]
      exact ⟨by linarith, fun heq => by linarith⟩
  · cases hnone.symm.trans h

end Choice

/-! ## The digits that are chosen -/

/-- The finest grid always has a choice, and the first grid that has one decides. -/
theorem exists_onGrid? {bits : Nat} (h : bits < infinity) :
    ∃ n < (Nat.toDigits 10 (exact bits)).length,
      onGrid? bits (step (Nat.toDigits 10 (exact bits)).length n) = some (shortest bits) ∧
        ∀ k < n, onGrid? bits (step (Nat.toDigits 10 (exact bits)).length k) = none := by
  have hpos : 0 < (Nat.toDigits 10 (exact bits)).length := Nat.length_toDigits_pos
  rw [shortest]
  generalize hdigits : (Nat.toDigits 10 (exact bits)).length = digits at hpos ⊢
  cases hfind : (List.range digits).findSome? fun n =>
      onGrid? bits (Nat.pow 10 (digits - 1 - n)) with
  | none =>
      have hnone : onGrid? bits (step digits (digits - 1)) = none :=
        List.findSome?_eq_none_iff.mp hfind _ (List.mem_range.mpr (by omega))
      have hstep : step digits (digits - 1) = 1 := by
        rw [step, Nat.sub_self]
      have hlower : lower (exact bits) 1 = exact bits := by simp [lower]
      have hback : readsBack bits (exact bits) := readsBack_iff.mpr (isNearest_exact h)
      rw [hstep] at hnone
      rcases onGrid?_cases bits 1 with ⟨hsome, -⟩ | ⟨hsome, -⟩ | ⟨-, hlow, -⟩
      · cases hnone.symm.trans hsome
      · cases hnone.symm.trans hsome
      · rw [hlower] at hlow
        exact absurd hback hlow
  | some decimal =>
      obtain ⟨before, n, after, hrange, hsome, hbefore⟩ := List.findSome?_eq_some_iff.mp hfind
      rw [List.range_eq_range'] at hrange
      obtain ⟨k, -, rfl, hrest⟩ := List.range'_eq_append_iff.mp hrange
      obtain ⟨rfl, hlt, -⟩ := List.range'_eq_cons_iff.mp hrest.symm
      exact ⟨_, by omega, hsome, fun j hj => hbefore j (List.mem_range'_1.mpr (by omega))⟩

theorem length_toDigits {number : Nat} (h : number ≠ 0) :
    10 ^ ((Nat.toDigits 10 number).length - 1) ≤ number ∧
      number < 10 ^ (Nat.toDigits 10 number).length := by
  have hpos : 0 < (Nat.toDigits 10 number).length := Nat.length_toDigits_pos
  have hiff := fun k (hk : 0 < k) => Nat.length_toDigits_le_iff (b := 10) (n := number)
    (by decide) hk
  refine ⟨?_, (hiff _ hpos).mp le_rfl⟩
  rcases Nat.eq_zero_or_pos ((Nat.toDigits 10 number).length - 1) with hone | hmore
  · rw [hone]
    omega
  · by_contra hlt
    have hle := (hiff _ hmore).mpr (Nat.not_le.mp hlt)
    omega

theorem shortest_eq_zero {bits : Nat} (h : bits < infinity) (hzero : exact bits = 0) :
    shortest bits = 0 := by
  obtain ⟨n, -, hsome, -⟩ := exists_onGrid? h
  have hlower : ∀ grid, lower (exact bits) grid = 0 := by simp [lower, hzero]
  have hback : readsBack bits 0 := by
    rw [← hzero]
    exact readsBack_iff.mpr (isNearest_exact h)
  rcases onGrid?_cases bits (step (Nat.toDigits 10 (exact bits)).length n) with
      ⟨hchoice, -⟩ | ⟨-, -, hless⟩ | ⟨hchoice, -⟩
  · rw [← Option.some.inj (hchoice.symm.trans hsome), hlower]
  · -- the upper neighbour is further away
    rw [hlower, hzero] at hless
    exact absurd (hless hback) (Nat.not_le.mpr (step_pos _ _))
  · cases hchoice.symm.trans hsome

theorem units_zero : units 0 = 0 := rfl

theorem value_zero : value 0 = 0 := by rw [value, units_zero, Nat.cast_zero, zero_div]

/-- Only the magnitude zero reads back from nothing. -/
theorem eq_zero_of_isNearest_zero {bits : Nat} (h : IsNearest 0 bits) : bits = 0 := by
  have hzero : IsNearest (value 0) 0 := isNearest_value (by decide)
  rw [value_zero] at hzero
  exact h.unique hzero

/-- The digits that are chosen for a finite magnitude are the shortest decimal that reads back. -/
theorem isShortest_shortest {bits : Nat} (h : bits < infinity) :
    IsShortest bits (placed (shortest bits)) := by
  obtain ⟨n, hn, hsome, hbefore⟩ := exists_onGrid? h
  by_cases hzero : exact bits = 0
  · -- nothing has fewer digits than zero, and nothing is closer to it
    have hvalue : value bits = 0 := by rw [value_eq_placed, hzero, placed, Nat.cast_zero, zero_div]
    have hshortest : placed (shortest bits) = value bits := by
      rw [value_eq_placed, shortest_eq_zero h hzero, hzero]
    rw [hshortest]
    refine ⟨isNearest_value h, fun m _ _ _ => hvalue ▸ hasDigits_zero m, fun r _ _ => ?_,
      fun r _ _ heq => ?_⟩
    · rw [sub_self, abs_zero]
      exact abs_nonneg _
    · rw [sub_self, abs_zero] at heq
      exact (sub_eq_zero.mp (abs_eq_zero.mp heq.symm)).ge
  · obtain ⟨hlow, hhigh⟩ := length_toDigits hzero
    generalize (Nat.toDigits 10 (exact bits)).length = digits at *
    obtain ⟨hback, hdigits, hclosest⟩ := closest_of_onGrid? h hlow hhigh hn hsome
    refine ⟨hback, fun m r hr hm => ?_, fun r hr hsame => ?_, fun r hr hsame => ?_⟩
    · cases m with
      | zero =>
          rw [eq_zero_of_hasDigits_zero hm] at hr
          obtain rfl := eq_zero_of_isNearest_zero hr
          rw [exact, units_zero, Nat.zero_mul] at hzero
          exact absurd rfl hzero
      | succ m =>
          have hle : n ≤ m := by
            by_contra hlt
            exact not_hasDigits_of_onGrid? h hlow (by omega) (hbefore m (by omega)) hr hm
          exact hdigits.mono (by omega)
    · exact (hclosest r hr (hsame _ hdigits)).1
    · exact (hclosest r hr (hsame _ hdigits)).2

end Lox.Numeral
