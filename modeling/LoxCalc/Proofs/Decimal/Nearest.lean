import LoxCalc.Decimal.Nearest
import Mathlib.Tactic.Ring
import Mathlib.Tactic.Linarith
import Mathlib.Algebra.Order.Ring.Nat
import Mathlib.Tactic.MkIffOfInductiveProp

/-!
# Doubles and the midpoints between them

Which double is nearest to a quotient can be said without rounding: the one whose midpoints to both
neighbours the quotient lies between. Main statement: `Within.nearestBits_eq`, rounding finds that
double.
-/

namespace LoxCalc.Decimal

/-! ### Rounding to whole numbers -/

section Rounding

variable {num den : Nat}

/-- A quotient at most one half away from a whole number is rounded to it, if the number is even
or the quotient is nearer than that. -/
theorem roundHalfEven_eq {m : Nat} (hden : 0 < den) (lower : 2 * (den * m) ≤ 2 * num + den)
    (upper : 2 * num ≤ 2 * (den * m) + den)
    (odd : m % 2 = 1 → 2 * (den * m) < 2 * num + den ∧ 2 * num < 2 * (den * m) + den) :
    roundHalfEven num den = m := by
  have hnum : den * (num / den) + num % den = num := Nat.div_add_mod num den
  have hmod : num % den < den := Nat.mod_lt _ hden
  rw [roundHalfEven]
  generalize num / den = q at *
  generalize num % den = r at *
  have hcases : m = q ∨ m = q + 1 := by
    by_contra! hne
    rcases Nat.lt_or_gt_of_ne hne.1 with hlt | hlt
    · have := Nat.mul_le_mul_left den hlt
      rw [Nat.mul_succ] at this
      omega
    · have := Nat.mul_le_mul_left den (Nat.lt_of_le_of_ne hlt hne.2.symm)
      rw [Nat.mul_succ, Nat.mul_succ] at this
      omega
  rcases hcases with rfl | rfl
  · refine if_pos ?_
    omega
  · rw [Nat.mul_succ] at lower upper odd
    refine if_neg ?_
    omega

theorem roundHalfEven_mul {c : Nat} (hc : 0 < c) :
    roundHalfEven (num * c) (den * c) = roundHalfEven num den := by
  rw [roundHalfEven, roundHalfEven, Nat.mul_div_mul_right _ _ hc, Nat.mul_mod_mul_right,
    ← Nat.mul_assoc]
  simp only [Nat.mul_lt_mul_right hc, Nat.mul_left_inj hc.ne']

/-- Only the quotient is rounded to a double. -/
theorem nearestBits_mul {c : Nat} (hc : 0 < c) :
    nearestBits (num * c) (den * c) = nearestBits num den := by
  rw [nearestBits, nearestBits, Nat.mul_right_comm num, Nat.mul_right_comm den,
    Nat.mul_div_mul_right _ _ hc, roundHalfEven_mul hc]

end Rounding

/-! ### Neighbours -/

section Neighbours

variable (b : Nat)

/-- The next double is one step of its scale larger. -/
theorem units_add_one : units (b + 1) = units b + 2 ^ scale b := by
  by_cases hscale : scale (b + 1) = scale b
  · exact units_succ hscale
  -- at a carry out of the significand the next double is the first one of the next scale
  have hnext : scale (b + 1) = scale b + 1 ∧ significand (b + 1) = binade ∧
      significand b + 1 = 2 * binade := by
    unfold significand scale binade at *
    omega
  obtain ⟨hs, hm, hm'⟩ := hnext
  rw [units, units, hs, hm, Nat.pow_eq, Nat.pow_eq, ← Nat.succ_mul, Nat.succ_eq_add_one, hm']
  ring

/-- The double before is at most one step of the scale smaller. -/
theorem units_le_pred : units b ≤ units (b - 1) + 2 ^ scale b := by
  cases b with
  | zero => simp [units, significand, scale]
  | succ b =>
    have hscale : scale b ≤ scale (b + 1) := by
      unfold scale
      exact Nat.sub_le_sub_right (Nat.div_le_div_right (by omega)) 1
    have := Nat.pow_le_pow_right (n := 2) (by decide) hscale
    rw [units_add_one]
    simpa using this

/-- The double before the first one of a scale is one step of the scale before smaller. -/
theorem units_pred {k : Nat} (hs : scale b = k + 1) (hm : significand b = binade) :
    units b = units (b - 1) + 2 ^ k := by
  have hsum := scale_add_significand b
  rw [hs, hm] at hsum
  unfold binade at hsum
  obtain ⟨c, rfl⟩ : ∃ c, b = c + 1 := ⟨b - 1, by omega⟩
  have hscale : scale c = k := by
    unfold scale binade
    omega
  rw [units_add_one, hscale, Nat.add_sub_cancel]

end Neighbours

/-! ### Between the midpoints -/

theorem unitsPerOne_pos : 0 < unitsPerOne := by
  unfold unitsPerOne
  generalize 1074 = places
  exact Nat.two_pow_pos places

/-- Whether `x / unit` units are not more than half the way from a double to its neighbours, and
less than that if its pattern is odd. -/
@[mk_iff]
structure Within (unit b x : Nat) : Prop where
  lower : (units (b - 1) + units b) * unit ≤ 2 * x
  upper : 2 * x ≤ (units b + units (b + 1)) * unit
  odd : b % 2 = 1 →
    (units (b - 1) + units b) * unit < 2 * x ∧ 2 * x < (units b + units (b + 1)) * unit

section Within

variable {unit b x : Nat}

/-- A double is between its midpoints. -/
theorem within_units (hunit : 0 < unit) (b : Nat) : Within unit b (units b * unit) := by
  have hnext : units b < units (b + 1) := by
    rw [units_add_one]
    exact Nat.lt_add_of_pos_right (Nat.two_pow_pos _)
  have hpred : units (b - 1) ≤ units b ∧ (b % 2 = 1 → units (b - 1) < units b) := by
    cases b with
    | zero => simp
    | succ b =>
      rw [Nat.add_sub_cancel, units_add_one]
      have := Nat.two_pow_pos (scale b)
      omega
  have hnextUnit := Nat.mul_lt_mul_of_pos_right hnext hunit
  rw [within_iff, Nat.add_mul, Nat.add_mul]
  refine ⟨?_, by omega, fun hodd => ⟨?_, by omega⟩⟩
  · have := Nat.mul_le_mul_right unit hpred.1
    omega
  · have := Nat.mul_lt_mul_of_pos_right (hpred.2 hodd) hunit
    omega

/-- The midpoints are at most half a step of the scale away, the upper one exactly that. -/
theorem Within.bounds (h : Within unit b x) :
    let step := unit * 2 ^ scale b
    2 * (step * significand b) ≤ 2 * x + step ∧ 2 * x ≤ 2 * (step * significand b) + step ∧
      (b % 2 = 1 → 2 * (step * significand b) < 2 * x + step ∧
        2 * x < 2 * (step * significand b) + step) := by
  intro step
  obtain ⟨lower, upper, odd⟩ := h
  have hunits : units b * unit = step * significand b := by
    rw [units, Nat.pow_eq]
    ring
  have hnext : (units b + units (b + 1)) * unit = 2 * (step * significand b) + step := by
    rw [units_add_one, ← hunits]
    ring
  have hpred : 2 * (step * significand b) ≤ (units (b - 1) + units b) * unit + step := by
    have := Nat.mul_le_mul_right unit (units_le_pred b)
    rw [Nat.add_mul, hunits, Nat.mul_comm (2 ^ scale b)] at this
    rw [Nat.add_mul, hunits]
    omega
  rw [hnext] at upper odd
  refine ⟨by omega, upper, fun hodd => ?_⟩
  have := odd hodd
  omega

theorem log2_div_eq {n : Nat} (hunit : 0 < unit) (lower : unit * 2 ^ n ≤ x)
    (upper : x < unit * 2 ^ (n + 1)) : Nat.log2 (x / unit) = n := by
  have hle : 2 ^ n ≤ x / unit := (Nat.le_div_iff_mul_le hunit).2 (Nat.mul_comm unit _ ▸ lower)
  have hlt : x / unit < 2 ^ (n + 1) :=
    (Nat.div_lt_iff_lt_mul hunit).2 (Nat.mul_comm unit _ ▸ upper)
  have hpos := Nat.two_pow_pos n
  exact (Nat.log2_eq_iff (by omega)).2 ⟨hle, hlt⟩

theorem unit_mul_two_pow (unit s : Nat) : unit * 2 ^ (52 + s) = unit * 2 ^ s * binade := by
  rw [binade, Nat.pow_add]
  ring

/-- A number so small that it is not rounded at the scale of the double is rounded at the scale
before, and the double is the first one of its scale. -/
theorem Within.log2_of_lt (hunit : 0 < unit) (h : Within unit b x) (hscale : scale b ≠ 0)
    (hlt : x < unit * 2 ^ scale b * binade) :
    significand b = binade ∧ Nat.log2 (x / unit) = 51 + scale b := by
  obtain ⟨lower, -, -⟩ := h.bounds
  have hle : binade ≤ significand b := by
    unfold significand scale binade at *
    omega
  have hhalf : 2 * (unit * 2 ^ (51 + scale b)) = unit * 2 ^ scale b * binade := by
    rw [← unit_mul_two_pow, show 52 + scale b = 51 + scale b + 1 by omega, Nat.pow_succ]
    ring
  have hupper : x < unit * 2 ^ (51 + scale b + 1) := by
    rwa [show 51 + scale b + 1 = 52 + scale b by omega, unit_mul_two_pow]
  have hpos : 0 < unit * 2 ^ scale b := Nat.mul_pos hunit (Nat.two_pow_pos _)
  generalize unit * 2 ^ scale b = step at *
  have hm : significand b = binade := by
    refine Nat.le_antisymm (Nat.le_of_not_lt fun hgt => ?_) hle
    have := Nat.mul_le_mul_left step hgt
    rw [Nat.mul_succ] at this
    omega
  have hsmall : step ≤ step * binade := Nat.le_mul_of_pos_right step (by decide)
  rw [hm] at lower
  exact ⟨hm, log2_div_eq hunit (by omega) hupper⟩

/-- A number between the midpoints is rounded at the scale of the double; below the first double of
a scale it can also be the scale before. -/
theorem Within.scale_cases (hunit : 0 < unit) (h : Within unit b x) :
    let k := Nat.log2 (x / unit) - 52
    k = scale b ∨
      scale b = k + 1 ∧ significand b = binade ∧ x < unit * 2 ^ scale b * binade := by
  intro k
  obtain ⟨-, upper, -⟩ := h.bounds
  by_cases hlarge : unit * 2 ^ scale b * binade ≤ x
  · left
    have hcarry : x < unit * 2 ^ (52 + scale b + 1) := by
      have hpos : 0 < unit * 2 ^ scale b := Nat.mul_pos hunit (Nat.two_pow_pos _)
      have hnext := Nat.mul_le_mul_left (unit * 2 ^ scale b) (significand_lt b)
      have htwice : unit * 2 ^ (52 + scale b + 1) = unit * 2 ^ scale b * (2 * binade) := by
        rw [Nat.pow_succ, ← Nat.mul_assoc, unit_mul_two_pow]
        ring
      rw [Nat.mul_succ] at hnext
      omega
    have hlog := log2_div_eq hunit (unit_mul_two_pow unit _ ▸ hlarge) hcarry
    omega
  have hlt := Nat.lt_of_not_le hlarge
  by_cases hscale : scale b = 0
  · left
    have hquotient : x / unit < 2 ^ 52 := by
      rw [← unit_mul_two_pow, hscale] at hlt
      exact (Nat.div_lt_iff_lt_mul hunit).2 (by omega)
    have hlog : Nat.log2 (x / unit) ≤ 52 := by
      by_cases hzero : x / unit = 0
      · simp [hzero]
      · exact ((Nat.log2_lt hzero).2 hquotient).le
    omega
  · obtain ⟨hm, hlog⟩ := h.log2_of_lt hunit hscale hlt
    exact .inr ⟨by omega, hm, hlt⟩

theorem Within.round_at_scale (hunit : 0 < unit) (h : Within unit b x) :
    roundHalfEven x (unit * 2 ^ scale b) = significand b := by
  obtain ⟨lower, upper, odd⟩ := h.bounds
  have hparity : significand b % 2 = b % 2 := by
    have hsum := scale_add_significand b
    unfold binade at hsum
    omega
  exact roundHalfEven_eq (Nat.mul_pos hunit (Nat.two_pow_pos _)) lower upper (hparity ▸ odd)

/-- At the scale before, rounding carries out of the significand. -/
theorem Within.round_before_scale (hunit : 0 < unit) (h : Within unit b x) {k : Nat}
    (hs : scale b = k + 1) (hm : significand b = binade)
    (hlt : x < unit * 2 ^ scale b * binade) : roundHalfEven x (unit * 2 ^ k) = 2 * binade := by
  have hunits : units b * unit = unit * 2 ^ k * (2 * binade) := by
    rw [units, hs, hm, Nat.pow_eq, Nat.pow_succ]
    ring
  have hlower : 2 * (unit * 2 ^ k * (2 * binade)) ≤ 2 * x + unit * 2 ^ k := by
    have hlow := h.lower
    have hpred := congrArg (· * unit) (units_pred b hs hm)
    simp only [Nat.add_mul, hunits, Nat.mul_comm (2 ^ k)] at hlow hpred
    omega
  have hupper : x < unit * 2 ^ k * (2 * binade) := by
    have htwice : unit * 2 ^ scale b * binade = unit * 2 ^ k * (2 * binade) := by
      rw [hs, Nat.pow_succ]
      ring
    rwa [htwice] at hlt
  exact roundHalfEven_eq (Nat.mul_pos hunit (Nat.two_pow_pos _)) hlower (by omega) (by omega)

/-- The double nearest to a number between its midpoints. -/
theorem Within.nearestBits_eq (hunit : 0 < unit) (hb : b < infinityBits) (h : Within unit b x) :
    nearestBits x (unit * unitsPerOne) = b := by
  have hround : ∀ k, roundHalfEven (x * unitsPerOne) (unit * unitsPerOne * Nat.pow 2 k) =
      roundHalfEven x (unit * 2 ^ k) := by
    intro k
    rw [Nat.mul_right_comm, roundHalfEven_mul unitsPerOne_pos, Nat.pow_eq]
  have hsum := scale_add_significand b
  rw [nearestBits, Nat.mul_div_mul_right _ _ unitsPerOne_pos]
  simp only [hround]
  rcases h.scale_cases hunit with hk | ⟨hk, hm, hlt⟩
  · rw [hk, h.round_at_scale hunit, hsum]
    exact Nat.min_eq_left hb.le
  · have hcarry : (Nat.log2 (x / unit) - 52) * binade + 2 * binade = b := by
      rw [hk, hm] at hsum
      rw [← hsum]
      ring
    rw [h.round_before_scale hunit hk hm hlt, hcarry]
    exact Nat.min_eq_left hb.le

end Within

end LoxCalc.Decimal
