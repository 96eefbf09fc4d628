import Mathlib.Tactic
import Lox.Proofs.Number.Double
import Lox.Proofs.Number.Shortest

set_option autoImplicit false

/-! # The text of a number is the canonical one

Every number has one canonical text, and it is the text that is written
(`Numeral.isCanonical_iff`). The digits behind the point are determined by their value, because they
do not end in a zero (`Numeral.fractionValue_injOn`).
-/

namespace Lox.Numeral

open Binary64 (infinity)

/-! ## Digits behind the point -/

/-- The value of digits behind the point. -/
def fractionValue (ds : List Char) : ℚ := Nat.ofDigitChars 10 ds 0 / 10 ^ ds.length

/-- The characters are digits, the last of which is not zero. -/
structure IsFraction (ds : List Char) : Prop where
  digits : ∀ d ∈ ds, d.isDigit
  last : ds.getLast? ≠ some '0'

theorem fractionValue_nil : fractionValue [] = 0 := by simp [fractionValue]

theorem fractionValue_cons (d : Char) (ds : List Char) :
    fractionValue (d :: ds) = ((d.toNat - '0'.toNat : Nat) + fractionValue ds) / 10 := by
  rw [fractionValue, fractionValue, Nat.ofDigitChars_cons, Nat.mul_zero, Nat.zero_add,
    Nat.ofDigitChars_eq_ofDigitChars_zero, List.length_cons, pow_succ]
  push_cast
  field_simp

/-- Digits are characters in a row. -/
theorem digit_bounds {d : Char} (h : d.isDigit) : 48 ≤ d.toNat ∧ d.toNat ≤ 57 :=
  Char.isDigit_iff_toNat.mp h

theorem fractionValue_nonneg (ds : List Char) : 0 ≤ fractionValue ds :=
  div_nonneg (Nat.cast_nonneg _) (by positivity)

theorem fractionValue_lt_one {ds : List Char} (h : ∀ d ∈ ds, d.isDigit) : fractionValue ds < 1 := by
  induction ds with
  | nil =>
      rw [fractionValue_nil]
      exact zero_lt_one
  | cons d ds ih =>
      obtain ⟨hd, hds⟩ := List.forall_mem_cons.mp h
      have hdigit : d.toNat - '0'.toNat ≤ 9 := Nat.sub_le_of_le_add (digit_bounds hd).2
      have hdigit' : ((d.toNat - '0'.toNat : Nat) : ℚ) ≤ 9 := by exact_mod_cast hdigit
      have hrest := ih hds
      rw [fractionValue_cons]
      linarith

theorem IsFraction.tail {d : Char} {ds : List Char} (h : IsFraction (d :: ds)) : IsFraction ds where
  digits := (List.forall_mem_cons.mp h.digits).2
  last hlast := by
    apply h.last
    rw [List.getLast?_cons, hlast]
    rfl

/-- Digits that do not end in a zero are not all zero. -/
theorem IsFraction.eq_nil {ds : List Char} (h : IsFraction ds) (hzero : fractionValue ds = 0) :
    ds = [] := by
  induction ds with
  | nil => rfl
  | cons d ds ih =>
      have hnonneg := fractionValue_nonneg ds
      have hdigit : (0 : ℚ) ≤ (d.toNat - '0'.toNat : Nat) := Nat.cast_nonneg _
      rw [fractionValue_cons] at hzero
      obtain rfl := ih h.tail (by linarith)
      have hd : d.toNat - '0'.toNat = 0 := by
        have hcast : ((d.toNat - '0'.toNat : Nat) : ℚ) = 0 := by linarith
        exact_mod_cast hcast
      have hbound := (digit_bounds (h.digits d (List.mem_singleton_self d))).1
      have heq : d = '0' :=
        Char.toNat_inj.mp (Nat.le_antisymm (Nat.sub_eq_zero_iff_le.mp hd) hbound)
      exact absurd (congrArg some heq) h.last

/-- A whole number and a part that is less than one are determined by their sum. -/
theorem natCast_add_inj {m n : Nat} {v w : ℚ} (hv : 0 ≤ v ∧ v < 1) (hw : 0 ≤ w ∧ w < 1)
    (h : (m + v : ℚ) = n + w) : m = n ∧ v = w := by
  have hle : m < n + 1 := by
    have hcast : (m : ℚ) < n + 1 := by linarith [hv.1, hw.2]
    exact_mod_cast hcast
  have hge : n < m + 1 := by
    have hcast : (n : ℚ) < m + 1 := by linarith [hw.1, hv.2]
    exact_mod_cast hcast
  obtain rfl : m = n := by omega
  exact ⟨rfl, by linarith⟩

/-- Digits that do not end in a zero are determined by their value. -/
theorem fractionValue_injOn : Set.InjOn fractionValue {ds | IsFraction ds} := by
  intro ds hds es hes heq
  induction ds generalizing es with
  | nil => exact (IsFraction.eq_nil hes (heq.symm.trans fractionValue_nil)).symm
  | cons d ds ih =>
      cases es with
      | nil => exact IsFraction.eq_nil hds (heq.trans fractionValue_nil)
      | cons e es =>
          rw [fractionValue_cons, fractionValue_cons, div_left_inj' (by norm_num)] at heq
          have hds' := IsFraction.tail hds
          have hes' := IsFraction.tail hes
          obtain ⟨hdigit, hrest⟩ := natCast_add_inj
            ⟨fractionValue_nonneg ds, fractionValue_lt_one hds'.digits⟩
            ⟨fractionValue_nonneg es, fractionValue_lt_one hes'.digits⟩ heq
          have hd := (digit_bounds (hds.digits d List.mem_cons_self)).1
          have he := (digit_bounds (hes.digits e List.mem_cons_self)).1
          obtain rfl : d = e := Char.toNat_inj.mp ((tsub_left_inj hd he).mp hdigit)
          rw [ih hds' hes' hrest]

/-! ## Decimals -/

/-- Digits before and behind the point, without a point if there are none behind it. -/
def decimalText (n : Nat) : List Char → List Char
  | [] => Nat.toDigits 10 n
  | ds => Nat.toDigits 10 n ++ '.' :: ds

theorem decimalText_of_ne_nil (n : Nat) {ds : List Char} (h : ds ≠ []) :
    decimalText n ds = Nat.toDigits 10 n ++ '.' :: ds := by
  cases ds with
  | nil => exact absurd rfl h
  | cons => rfl

theorem isPositional_iff {q : ℚ} {cs : List Char} : IsPositional q cs ↔
    ∃ (n : Nat) (ds : List Char), IsFraction ds ∧ q = n + fractionValue ds ∧
      cs = decimalText n ds := by
  constructor
  · intro h
    cases h with
    | whole n => exact ⟨n, [], ⟨by simp, by simp⟩, by simp [fractionValue_nil], rfl⟩
    | fraction n hne hds hlast =>
        exact ⟨n, _, ⟨hds, hlast⟩, rfl, (decimalText_of_ne_nil n hne).symm⟩
  · rintro ⟨n, ds, h, rfl, rfl⟩
    by_cases hne : ds = []
    · subst hne
      rw [fractionValue_nil, add_zero]
      exact .whole n
    · rw [decimalText_of_ne_nil n hne]
      exact .fraction n hne h.digits h.last

/-- A number is written in digits in one way. -/
theorem IsPositional.unique {q : ℚ} {cs cs' : List Char} (h : IsPositional q cs)
    (h' : IsPositional q cs') : cs = cs' := by
  obtain ⟨m, ds, hds, hq, rfl⟩ := isPositional_iff.mp h
  obtain ⟨n, es, hes, hq', rfl⟩ := isPositional_iff.mp h'
  obtain ⟨rfl, hvalue⟩ := natCast_add_inj
    ⟨fractionValue_nonneg ds, fractionValue_lt_one hds.digits⟩
    ⟨fractionValue_nonneg es, fractionValue_lt_one hes.digits⟩ (hq.symm.trans hq')
  rw [fractionValue_injOn hds hes hvalue]

theorem eq_zero_of_digitChar {n : Nat} (h : n < 10) (hzero : Nat.digitChar n = '0') : n = 0 := by
  revert n
  decide

theorem fractionDigits_eq_nil {part n : Nat} (hn : one ∣ part * 10 ^ n) (h : part < one)
    (hnil : fractionDigits part n = []) : part = 0 := by
  cases n with
  | zero =>
      rw [pow_zero, Nat.mul_one] at hn
      exact Nat.eq_zero_of_dvd_of_lt hn h
  | succ n =>
      rw [fractionDigits] at hnil
      split at hnil
      · next hpart => exact hpart
      · cases hnil

/-- The digits of a fraction that has no more than `n` of them do not end in a zero. -/
theorem isFraction_fractionDigits {part n : Nat} (h : part < one)
    (hn : one ∣ part * Nat.pow 10 n) : IsFraction (fractionDigits part n) where
  digits _ := isDigit_of_mem_fractionDigits h
  last := by
    rw [Nat.pow_eq] at hn
    induction n generalizing part with
    | zero => simp [fractionDigits]
    | succ n ih =>
        rw [fractionDigits]
        split
        · simp
        · next hpart =>
          have hrest : part * 10 % one < one := Nat.mod_lt _ one_pos
          have hlast := ih hrest (one_dvd_rest hn)
          rw [List.getLast?_cons]
          cases hnext : fractionDigits (part * 10 % one) n with
          | nil =>
              -- nothing is left behind the last digit, so it is all there is of the part
              have hzero := fractionDigits_eq_nil (one_dvd_rest hn) hrest hnext
              intro hdigit
              have hdigit' := eq_zero_of_digitChar (digit_lt_ten h) (Option.some.inj hdigit)
              have hsplit := Nat.div_add_mod' (part * 10) one
              rw [hdigit', hzero, Nat.zero_mul] at hsplit
              omega
          | cons d ds =>
              rw [hnext] at hlast
              rw [List.getLast?_cons] at hlast ⊢
              exact hlast

/-- The text of a decimal shows it. -/
theorem isPositional_positional (decimal : Nat) :
    IsPositional (placed decimal) (positional decimal) := by
  have hpart : decimal % one < one := Nat.mod_lt _ one_pos
  have hdvd := one_dvd (decimal % one)
  have htext : positional decimal =
      decimalText (decimal / one) (fractionDigits (decimal % one) places) := by
    rw [positional]
    cases fractionDigits (decimal % one) places <;> rfl
  refine isPositional_iff.mpr ⟨_, _, isFraction_fractionDigits hpart hdvd, ?_, htext⟩
  have hdigits := ofDigitChars_fractionDigits hpart hdvd
  generalize fractionDigits (decimal % one) places = ds at hdigits ⊢
  have hvalue : fractionValue ds = (decimal % one : Nat) / one := by
    rw [fractionValue, div_eq_div_iff (by positivity) one_pos_rat.ne']
    exact_mod_cast hdigits
  rw [hvalue, placed, add_div_eq_mul_add_div _ _ one_pos_rat.ne', ← Nat.cast_mul, ← Nat.cast_add,
    Nat.div_add_mod']

/-! ## Texts -/

theorem IsMagnitude.le_infinity {bits : Nat} {cs : List Char} (h : IsMagnitude bits cs) :
    bits ≤ infinity := by
  cases h with
  | infinite => exact le_rfl
  | finite h _ _ => exact h.le

/-- A magnitude that is not beyond the infinite one has one text, which is the one that is
written. -/
theorem isMagnitude_iff {bits : Nat} (h : bits ≤ infinity) {cs : List Char} :
    IsMagnitude bits cs ↔ cs = magnitudeText bits := by
  rcases Nat.lt_or_eq_of_le h with hfinite | rfl
  · have htext : magnitudeText bits = positional (shortest bits) := if_neg hfinite.ne
    have hshortest := isShortest_shortest hfinite
    have hpositional := isPositional_positional (shortest bits)
    rw [htext]
    constructor
    · intro hcs
      cases hcs with
      | infinite => exact absurd rfl hfinite.ne
      | finite _ hq hcs =>
          obtain rfl := hq.unique hshortest
          exact hcs.unique hpositional
    · rintro rfl
      exact .finite hfinite hshortest hpositional
  · have htext : magnitudeText infinity = ['i', 'n', 'f'] := if_pos rfl
    rw [htext]
    constructor
    · intro hcs
      cases hcs with
      | infinite => rfl
      | finite h _ _ => exact absurd rfl h.ne
    · rintro rfl
      exact .infinite

/-- **Texts of numbers.** Every number has one canonical text, which is the one that is written. -/
theorem isCanonical_iff {x : Float} {s : String} : IsCanonical x s ↔ s = text x := by
  have hlt : x.toBits.toNat < 2 ^ 64 := x.toBits.toNat_lt
  have htext : text x = if infinity < x.toBits.toNat % 2 ^ 63 then "NaN"
      else if 2 ^ 63 ≤ x.toBits.toNat then
        .ofList ('-' :: magnitudeText (x.toBits.toNat % 2 ^ 63))
      else .ofList (magnitudeText (x.toBits.toNat % 2 ^ 63)) := rfl
  have hfits : infinity < 2 ^ 63 := by decide
  rw [htext]
  constructor
  · intro h
    cases h with
    | nan h => rw [if_pos ((Binary64.isNaN_iff x).mp h)]
    | positive h =>
        have hle := h.le_infinity
        have hbits : x.toBits.toNat % 2 ^ 63 = x.toBits.toNat := Nat.mod_eq_of_lt (by omega)
        rw [hbits, if_neg (by omega), if_neg (by omega), (isMagnitude_iff hle).mp h]
    | @negative bits _ hx h =>
        have hle := h.le_infinity
        have hbits : x.toBits.toNat % 2 ^ 63 = bits := by
          rw [hx, Nat.add_mod_left, Nat.mod_eq_of_lt (by omega)]
        rw [hbits, if_neg (by omega), if_pos (by omega), (isMagnitude_iff hle).mp h]
  · rintro rfl
    split
    · next h => exact .nan ((Binary64.isNaN_iff x).mpr h)
    · next h =>
      have hmagnitude := (isMagnitude_iff (Nat.not_lt.mp h)).mpr rfl
      split
      · next hsign => exact .negative (by omega) hmagnitude
      · next hsign =>
        rw [Nat.mod_eq_of_lt (Nat.not_le.mp hsign)] at hmagnitude ⊢
        exact .positive hmagnitude

end Lox.Numeral
