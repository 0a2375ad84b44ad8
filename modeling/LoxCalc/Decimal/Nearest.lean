/-!
# The double nearest to a decimal

The doubles without a sign are numbered by their bit patterns: `0` is zero, each pattern after it is
the next larger double, and `infinityBits` is infinity. Every double is a whole number of units of
`2^-1074`, which `units` counts, so a quotient of natural numbers is rounded by exact arithmetic
alone. Main statement: `units_succ`, the doubles of one scale lie evenly spaced.
-/

namespace LoxCalc.Decimal

/-- The number of patterns that share an exponent, which is `2^52`. -/
def binade : Nat := 0x10000000000000

/-- The bit pattern of infinity. -/
def infinityBits : Nat := 0x7ff * binade

/-- The number of units in one. -/
def unitsPerOne : Nat := Nat.pow 2 1074

/-- The scale of a double: the next double is `2^scale` units away. -/
def scale (bits : Nat) : Nat := bits / binade - 1

/-- The size of a double in steps of its scale. -/
def significand (bits : Nat) : Nat := bits - scale bits * binade

/-- The size of a double in units. -/
def units (bits : Nat) : Nat := significand bits * Nat.pow 2 (scale bits)

/-- The whole number nearest to `num / den`; of two equally near ones the even one. -/
def roundHalfEven (num den : Nat) : Nat :=
  let quotient := num / den
  let twice := 2 * (num % den)
  if twice < den ∨ twice = den ∧ quotient % 2 = 0 then quotient else quotient + 1

/-- The bit pattern of the double nearest to `num / den`; of two equally near ones the even one.
A quotient beyond the largest double becomes infinity. The scale of the result is the one at
which the quotient has 53 bits, and a carry out of the significand moves on to the next scale by
itself, since patterns count the doubles in order. -/
def nearestBits (num den : Nat) : Nat :=
  let n := num * unitsPerOne
  let k := Nat.log2 (n / den) - 52
  min (k * binade + roundHalfEven n (den * Nat.pow 2 k)) infinityBits

/-- The double nearest to the decimal with these digits before and after its point. -/
def read (whole fraction : List Char) : Float :=
  Float.ofBits (UInt64.ofNat
    (nearestBits (Nat.ofDigitChars 10 (whole ++ fraction) 0) (Nat.pow 10 fraction.length)))

/-! ### Scales -/

theorem scale_mul_binade_le (bits : Nat) : scale bits * binade ≤ bits := by
  unfold scale binade
  omega

/-- A pattern is its scale and its significand. -/
theorem scale_add_significand (bits : Nat) : scale bits * binade + significand bits = bits :=
  Nat.add_sub_cancel' (scale_mul_binade_le bits)

/-- A significand has at most 53 bits. -/
theorem significand_lt (bits : Nat) : significand bits < 2 * binade := by
  unfold significand scale binade
  omega

/-- Within one scale the next pattern is one step larger. -/
theorem units_succ {bits : Nat} (h : scale (bits + 1) = scale bits) :
    units (bits + 1) = units bits + Nat.pow 2 (scale bits) := by
  have hsucc : significand (bits + 1) = significand bits + 1 := by
    have := scale_mul_binade_le bits
    unfold significand
    rw [h]
    omega
  rw [units, units, h, hsucc, Nat.succ_mul]

end LoxCalc.Decimal
