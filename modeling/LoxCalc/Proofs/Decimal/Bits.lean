import LoxCalc.Decimal.Shortest
import Mathlib

/-!
# Bit patterns of doubles

A bit pattern is a sign, an exponent and a significand side by side. The largest exponent is that of
infinities and of what is no number; negation changes nothing but the sign of the others. Main
statement: `exists_magnitude`, a finite double is given by the pattern of its magnitude and its
sign.
-/

namespace LoxCalc.Decimal

open Float.Model (Format UnpackedFloat)
open Float.Model.UnpackedFloat (Sign packComponents unpackExponent unpackMantissa)

/-- Every pattern is three fields side by side. -/
theorem exists_packComponents (p : UInt64) :
    ∃ s e m, p = .ofBitVec (packComponents .binary64 s e m) :=
  ⟨_, _, _, congrArg UInt64.ofBitVec
    (@UnpackedFloat.packComponents_unpackSign_unpackExponent_unpackMantissa .binary64
      p.toBitVec).symm⟩

section Fields

variable (s : Sign) (e : BitVec 11) (m : BitVec 52)

theorem toNat_packComponents : (packComponents .binary64 s e m).toNat =
    s.toBitVec.toNat * signBit + e.toNat * binade + m.toNat := by
  rw [packComponents, BitVec.toNat_append, BitVec.toNat_append,
    ← Nat.shiftLeft_add_eq_or_of_lt e.isLt, ← Nat.shiftLeft_add_eq_or_of_lt m.isLt]
  simp only [Nat.shiftLeft_eq, signBit, binade]
  omega

variable {e}

theorem not_isNaNBits_packComponents (he : e ≠ -1#11) :
    ¬UnpackedFloat.isNaNBits (packComponents .binary64 s e m) := by
  intro h
  have hexponent := (of_decide_eq_true h).1
  rw [UnpackedFloat.unpackExponent_packComponents] at hexponent
  exact he hexponent

theorem neg_unpack (he : e ≠ -1#11) :
    (UnpackedFloat.unpack .binary64 (packComponents .binary64 s e m)).neg =
      UnpackedFloat.unpack .binary64 (packComponents .binary64 (-s) e m) := by
  rw [UnpackedFloat.unpack, UnpackedFloat.unpack]
  simp only [UnpackedFloat.unpackExponent_packComponents,
    UnpackedFloat.unpackMantissa_packComponents, UnpackedFloat.unpackSign_packComponents,
    UnpackedFloat.Sign.ofBitVec_toBitVec]
  rw [if_neg he, if_neg he]
  split
  · split <;> rfl
  · rfl

/-- Negation changes the sign of a pattern. -/
theorem neg_ofBits (he : e ≠ -1#11) :
    -Float.ofBits (.ofBitVec (packComponents .binary64 s e m)) =
      .ofBits (.ofBitVec (packComponents .binary64 (-s) e m)) := by
  have hpack : UnpackedFloat.pack .binary64
      (UnpackedFloat.unpack .binary64 (packComponents .binary64 s e m)) =
        packComponents .binary64 s e m :=
    (UnpackedFloat.pack_unpack _).trans (if_neg (not_isNaNBits_packComponents s m he))
  have hneg := neg_unpack s m he
  rw [← hpack] at hneg
  exact congrArg (fun x => Float.ofModel (.pack x)) hneg

end Fields

/-- The exponent of a finite double is not the largest one. -/
theorem exponent_ne {x : Float} (h : x.isFinite) {s : Sign} {e : BitVec 11} {m : BitVec 52}
    (hx : x.toBits = .ofBitVec (packComponents .binary64 s e m)) : e ≠ -1#11 := by
  rintro rfl
  have hunpack : (UnpackedFloat.unpack .binary64 x.toBits.toBitVec).isFinite = true := h
  rw [hx, UnpackedFloat.unpack] at hunpack
  simp only [UnpackedFloat.unpackExponent_packComponents, if_true] at hunpack
  split at hunpack <;> cases hunpack

/-- A finite double is the one whose pattern is its magnitude, or the negative of that one. -/
theorem exists_magnitude {x : Float} (h : x.isFinite) : ∃ b < infinityBits,
    x.toBits.toNat = b ∧ x = .ofBits (.ofNat b) ∨
      x.toBits.toNat = signBit + b ∧ x = -.ofBits (.ofNat b) := by
  obtain ⟨s, e, m, hx⟩ := exists_packComponents x.toBits
  have he := exponent_ne h hx
  have hnat : ∀ s, (UInt64.ofBitVec (packComponents .binary64 s e m)).toNat =
      s.toBitVec.toNat * signBit + (e.toNat * binade + m.toNat) := by
    intro s
    rw [← Nat.add_assoc]
    exact toNat_packComponents s e m
  have hb : e.toNat * binade + m.toNat < infinityBits := by
    have hne : e.toNat ≠ 2047 := fun h => he (BitVec.eq_of_toNat_eq h)
    have hlt : e.toNat < 2048 := e.isLt
    have hm : m.toNat < binade := m.isLt
    unfold infinityBits binade at *
    omega
  have hmagnitude : UInt64.ofNat (e.toNat * binade + m.toNat) =
      .ofBitVec (packComponents .binary64 .positive e m) := by
    rw [← UInt64.ofNat_toNat (x := .ofBitVec (packComponents .binary64 .positive e m)), hnat]
    simp [Sign.toBitVec]
  refine ⟨_, hb, ?_⟩
  rw [hmagnitude, hx, hnat, ← Float.ofBits_toBits x, hx]
  cases s with
  | positive => exact .inl ⟨by simp [Sign.toBitVec], rfl⟩
  | negative => exact .inr ⟨by simp [Sign.toBitVec], (neg_ofBits .positive m he).symm⟩

end LoxCalc.Decimal
