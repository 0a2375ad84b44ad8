import LoxCalc.Proofs.Decimal.Bits

/-!
# Patterns and doubles

Every bit pattern is that of a double, but for those beyond infinity, which all stand for the one
value that is no number. So equality of doubles can be read off their patterns. Main statements:
`toBits_ofBits`, which patterns are kept; `beq_ofBits_iff`, two doubles are equal if both are
numbers and have one pattern or are zeros.
-/

namespace LoxCalc.Decimal

open Float.Model (Format UnpackedFloat)
open Float.Model.UnpackedFloat (Sign packComponents isNaNBits packedNaN)

/-- The part of a pattern that is not its sign. -/
def magnitude (p : UInt64) : Nat := p.toNat % signBit

theorem magnitude_packComponents (s : Sign) (e : BitVec 11) (m : BitVec 52) :
    magnitude (.ofBitVec (packComponents .binary64 s e m)) = e.toNat * binade + m.toNat := by
  have hnat : (UInt64.ofBitVec (packComponents .binary64 s e m)).toNat = _ :=
    toNat_packComponents s e m
  have he : e.toNat < 2048 := e.isLt
  have hm : m.toNat < binade := m.isLt
  rw [magnitude, hnat]
  unfold signBit binade at *
  omega

/-- The patterns of what is no number are those beyond infinity. -/
theorem isNaNBits_iff (p : UInt64) :
    @isNaNBits .binary64 p.toBitVec ↔ infinityBits < magnitude p := by
  obtain ⟨s, e, m, rfl⟩ := exists_packComponents p
  have hexponent : e = -1#11 ↔ e.toNat = 2047 := BitVec.toNat_inj.symm
  have hmantissa : m = 0#52 ↔ m.toNat = 0 := BitVec.toNat_inj.symm
  have he : e.toNat < 2048 := e.isLt
  have hm : m.toNat < binade := m.isLt
  rw [magnitude_packComponents, isNaNBits, decide_eq_true_iff,
    UnpackedFloat.unpackExponent_packComponents, UnpackedFloat.unpackMantissa_packComponents,
    ne_eq, hexponent, hmantissa]
  unfold infinityBits binade at *
  omega

/-- The double of a pattern has that pattern, unless it is no number. -/
theorem toBits_ofBits (p : UInt64) :
    (Float.ofBits p).toBits = if infinityBits < magnitude p then Float.nan.toBits else p := by
  have hpack : (Float.ofBits p).toBits =
      .ofBitVec (UnpackedFloat.pack .binary64 (UnpackedFloat.unpack .binary64 p.toBitVec)) := rfl
  rw [hpack, UnpackedFloat.pack_unpack]
  simp only [isNaNBits_iff]
  split <;> rfl

section Equality

variable {p q : UInt64}

theorem toBits_ofBits_of_le (h : magnitude p ≤ infinityBits) : (Float.ofBits p).toBits = p := by
  rw [toBits_ofBits, if_neg (by omega)]

/-- A number is given by its pattern. -/
theorem ofBits_inj (h : magnitude p ≤ infinityBits) (h' : magnitude q ≤ infinityBits) :
    Float.ofBits p = Float.ofBits q ↔ p = q := by
  rw [← Float.toBits_inj, toBits_ofBits_of_le h, toBits_ofBits_of_le h']

theorem ofBits_eq_nan_iff : Float.ofBits p = Float.nan ↔ infinityBits < magnitude p := by
  rw [← Float.toBits_inj, toBits_ofBits]
  by_cases hp : infinityBits < magnitude p
  · simp [hp]
  · rw [if_neg hp]
    refine iff_of_false ?_ hp
    rintro rfl
    exact hp (by decide +kernel)

theorem magnitude_eq_zero_iff : magnitude p = 0 ↔ p = 0 ∨ p = 0x8000000000000000 := by
  have hlt : p.toNat < 2 * signBit := p.toNat_lt
  rw [magnitude, ← UInt64.toNat_inj, ← UInt64.toNat_inj]
  change _ ↔ p.toNat = 0 ∨ p.toNat = signBit
  unfold signBit at *
  omega

theorem zero_eq : (0 : Float) = .ofBits 0 := by decide +kernel

theorem neg_zero_eq : (-0 : Float) = .ofBits 0x8000000000000000 := by decide +kernel

theorem beq_ofBits_iff : Float.ofBits p == Float.ofBits q ↔
    magnitude p ≤ infinityBits ∧ magnitude q ≤ infinityBits ∧
      (p = q ∨ magnitude p = 0 ∧ magnitude q = 0) := by
  rw [Float.beq_iff_ne_nan_and_eq, ne_eq, ne_eq, ofBits_eq_nan_iff, ofBits_eq_nan_iff,
    Nat.not_lt, Nat.not_lt]
  refine and_congr_right fun hp => and_congr_right fun hq => ?_
  rw [neg_zero_eq, zero_eq, ofBits_inj hp hq, ofBits_inj hp (by decide), ofBits_inj hq (by decide),
    ofBits_inj hp (by decide), ofBits_inj hq (by decide), magnitude_eq_zero_iff,
    magnitude_eq_zero_iff]
  constructor
  · rintro (h | ⟨hp, hq⟩ | ⟨hp, hq⟩)
    · exact .inl h
    · exact .inr ⟨.inl hp, .inr hq⟩
    · exact .inr ⟨.inr hp, .inl hq⟩
  · rintro (h | ⟨rfl | rfl, rfl | rfl⟩)
    · exact .inl h
    · exact .inl rfl
    · exact .inr (.inl ⟨rfl, rfl⟩)
    · exact .inr (.inr ⟨rfl, rfl⟩)
    · exact .inl rfl

end Equality

end LoxCalc.Decimal
