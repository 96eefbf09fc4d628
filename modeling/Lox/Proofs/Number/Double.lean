import Mathlib
import Lox.Proofs.Number.Decimal

set_option autoImplicit false

/-! # Doubles and their bits

The bits of a double are a sign, an exponent and a mantissa. A double is finite if its exponent is
not the largest one. Then it is the double that its bits denote without the sign, or the negation
of this one (`Binary64.sign_magnitude`). So its text is a numeral that denotes its absolute value,
with a minus in front if it has a negative sign (`Numeral.text_of_isFinite`).
-/

namespace Lox

namespace Binary64

open Float.Model (Format)
open Float.Model.UnpackedFloat

/-! ## Components -/

theorem toNat_packComponents (s : Sign) (e : BitVec 11) (m : BitVec 52) :
    (packComponents .binary64 s e m).toNat =
      s.toBitVec.toNat * 2 ^ 63 + (e.toNat * 2 ^ 52 + m.toNat) := by
  have hm := m.isLt
  have he := e.isLt
  rw [packComponents, BitVec.toNat_append, BitVec.toNat_append]
  rw [← Nat.shiftLeft_add_eq_or_of_lt hm, ← Nat.shiftLeft_add_eq_or_of_lt he]
  simp only [Nat.shiftLeft_eq]
  omega

/-- The number with the components. -/
def ofComponents (s : Sign) (e : BitVec 11) (m : BitVec 52) : Float :=
  .ofBits (.ofBitVec (packComponents .binary64 s e m))

/-- Every number has components. -/
theorem exists_components (x : Float) :
    ∃ s e m, x.toBits = .ofBitVec (packComponents .binary64 s e m) := by
  have hbits : packComponents .binary64 _ _ _ = x.toBits.toBitVec :=
    packComponents_unpackSign_unpackExponent_unpackMantissa _
  exact ⟨_, _, _, congrArg UInt64.ofBitVec hbits.symm⟩

theorem toNat_toBits {x : Float} {s : Sign} {e : BitVec 11} {m : BitVec 52}
    (h : x.toBits = .ofBitVec (packComponents .binary64 s e m)) :
    x.toBits.toNat = s.toBitVec.toNat * 2 ^ 63 + (e.toNat * 2 ^ 52 + m.toNat) := by
  rw [← toNat_packComponents, h]
  rfl

/-- To negate a number is to change its sign. -/
theorem neg_unpack (s : Sign) (e : BitVec 11) (m : BitVec 52) :
    (unpack .binary64 (packComponents .binary64 s e m)).neg =
      unpack .binary64 (packComponents .binary64 (-s) e m) := by
  unfold unpack
  simp only [unpackMantissa_packComponents, unpackExponent_packComponents,
    unpackSign_packComponents, Sign.ofBitVec_toBitVec]
  split_ifs <;> rfl

section Finite

variable {s : Sign} {e : BitVec 11} {m : BitVec 52}

theorem ne_of_isFinite (h : (unpack .binary64 (packComponents .binary64 s e m)).isFinite) :
    e ≠ -1#11 := by
  rintro rfl
  unfold unpack at h
  simp only [unpackMantissa_packComponents, unpackExponent_packComponents, if_true] at h
  by_cases hm : m = 0#52
  · rw [if_pos hm] at h
    cases h
  · rw [if_neg hm] at h
    cases h

theorem pack_unpack_components (he : e ≠ -1#11) :
    pack .binary64 (unpack .binary64 (packComponents .binary64 s e m)) =
      packComponents .binary64 s e m := by
  rw [pack_unpack, if_neg]
  simpa [isNaNBits] using fun h => absurd h he

theorem toBits_ofComponents (he : e ≠ -1#11) :
    (ofComponents s e m).toBits = .ofBitVec (packComponents .binary64 s e m) :=
  congrArg UInt64.ofBitVec (pack_unpack_components he)

theorem neg_ofComponents (he : e ≠ -1#11) : -ofComponents s e m = ofComponents (-s) e m := by
  apply Float.toBits_inj.mp
  have hneg : (-ofComponents s e m).toBits = .ofBitVec (pack .binary64
      (unpack .binary64 (ofComponents s e m).toBits.toBitVec).neg) := rfl
  rw [hneg, toBits_ofComponents he, neg_unpack, pack_unpack_components he, toBits_ofComponents he]

theorem toNat_lt_of_ne (he : e ≠ -1#11) : e.toNat < 2047 := by
  have hlt := e.isLt
  by_contra hge
  exact he (BitVec.eq_of_toNat_eq (by show e.toNat = 2047; omega))

end Finite

theorem isNaN_components (s : Sign) (e : BitVec 11) (m : BitVec 52) :
    (unpack .binary64 (packComponents .binary64 s e m)).isNaN ↔ e = -1#11 ∧ m ≠ 0#52 := by
  unfold unpack
  simp only [unpackMantissa_packComponents, unpackExponent_packComponents]
  split_ifs <;> simp_all [isNaN]

/-- The bits of NaN lie beyond those of the infinite magnitude, and no other bits do. -/
theorem isNaN_iff (x : Float) : x.isNaN ↔ infinity < x.toBits.toNat % 2 ^ 63 := by
  obtain ⟨s, e, m, hbits⟩ := exists_components x
  have hnat := toNat_toBits hbits
  have hnan : x.isNaN = (unpack .binary64 x.toBits.toBitVec).isNaN := rfl
  have he : e.toNat < 2 ^ 11 := e.isLt
  have hm : m.toNat < 2 ^ 52 := m.isLt
  have hexponent : e = -1#11 ↔ e.toNat = 2047 := BitVec.toNat_inj.symm
  have hmantissa : m = 0#52 ↔ m.toNat = 0 := BitVec.toNat_inj.symm
  have hmagnitude : x.toBits.toNat % 2 ^ 63 = e.toNat * 2 ^ 52 + m.toNat := by
    rw [hnat]
    omega
  rw [hmagnitude, hnan, hbits, isNaN_components, ne_eq, hexponent, hmantissa]
  show _ ↔ 2047 * 2 ^ 52 < _
  omega

/-- The magnitude of a finite number is finite, and with the sign it is the number. -/
theorem sign_magnitude {x : Float} (hx : x.isFinite) :
    x.toBits.toNat % 2 ^ 63 < infinity ∧
      if 2 ^ 63 ≤ x.toBits.toNat then -Float.ofBits (.ofNat (x.toBits.toNat % 2 ^ 63)) = x
      else Float.ofBits (.ofNat (x.toBits.toNat % 2 ^ 63)) = x := by
  obtain ⟨s, e, m, hbits⟩ := exists_components x
  have he : e ≠ -1#11 := by
    have hfinite : (unpack .binary64 x.toBits.toBitVec).isFinite := hx
    rw [hbits] at hfinite
    exact ne_of_isFinite hfinite
  have hx : x = ofComponents s e m := by
    rw [ofComponents, ← hbits, Float.ofBits_toBits]
  have hnat := toNat_toBits hbits
  have hexponent := toNat_lt_of_ne he
  have hm : m.toNat < 2 ^ 52 := m.isLt
  have hmagnitude : x.toBits.toNat % 2 ^ 63 = e.toNat * 2 ^ 52 + m.toNat := by
    rw [hnat]
    omega
  -- the magnitude is the number with the positive sign
  have hpositive : Float.ofBits (.ofNat (x.toBits.toNat % 2 ^ 63)) =
      ofComponents .positive e m := by
    apply congrArg Float.ofBits
    apply UInt64.toNat_inj.mp
    show _ = (packComponents .binary64 .positive e m).toNat
    rw [UInt64.toNat_ofNat', hmagnitude, toNat_packComponents, Nat.mod_eq_of_lt (by omega)]
    simp [Sign.toBitVec]
  constructor
  · show _ < 2047 * 2 ^ 52
    omega
  · rw [hpositive]
    cases s with
    | negative =>
        rw [if_pos (by rw [hnat]; simp [Sign.toBitVec]), neg_ofComponents he]
        exact hx.symm
    | positive =>
        rw [if_neg (by rw [hnat]; simp [Sign.toBitVec]; omega)]
        exact hx.symm

end Binary64

namespace Numeral

open Binary64 (infinity)

/-- The text of a finite number is a numeral, behind a minus sign if the number has the negative
sign. The numeral reads as the number without its sign. -/
theorem text_of_isFinite {x : Float} (hx : x.isFinite) :
    ∃ cs, Lexeme.IsNumeral cs ∧
      (text x = .ofList cs ∧ read cs = x ∨ text x = .ofList ('-' :: cs) ∧ -read cs = x) := by
  obtain ⟨hfinite, hsign⟩ := Binary64.sign_magnitude hx
  have hread := read_shortest hfinite
  have hmagnitude : magnitudeText (x.toBits.toNat % 2 ^ 63) =
      positional (shortest (x.toBits.toNat % 2 ^ 63)) := if_neg (by omega)
  refine ⟨_, isNumeral_positional (shortest (x.toBits.toNat % 2 ^ 63)), ?_⟩
  have htext : text x = if 2 ^ 63 ≤ x.toBits.toNat then
      .ofList ('-' :: magnitudeText (x.toBits.toNat % 2 ^ 63))
      else .ofList (magnitudeText (x.toBits.toNat % 2 ^ 63)) := if_neg (Nat.lt_asymm hfinite)
  rw [htext, hmagnitude, hread]
  split at hsign
  · next h => exact .inr ⟨if_pos h, hsign⟩
  · next h => exact .inl ⟨if_neg h, hsign⟩

end Numeral

end Lox
