import LoxCalc.Proofs.Decimal.Bits
import LoxCalc.Proofs.Decimal.Nearest
import LoxCalc.Proofs.Token.Lexeme
import Mathlib.Data.List.DropRight

/-!
# Doubles and their texts

The text of a double is a decimal between its midpoints, written out, so that reading it gives the
double back bit for bit. Main statement: `lexeme_text`, the text of a finite double is a token for
it, with a minus sign in front if it has one.
-/

namespace LoxCalc.Decimal

/-! ### The number that is written -/

namespace Cell

variable {cell : Cell} {x y step : Nat}

theorem contains_of_nearestMultiple? (h : cell.nearestMultiple? x step = some y) :
    cell.contains y := by
  rw [nearestMultiple?] at h
  split at h
  next hbelow =>
    obtain rfl := Option.some.inj h
    exact (Bool.and_eq_true_iff.1 hbelow).1
  next =>
    split at h
    next habove =>
      obtain rfl := Option.some.inj h
      exact habove
    next => cases h

theorem contains_coarsest (h : cell.contains x) (j : Nat) : cell.contains (cell.coarsest x j) := by
  induction j with
  | zero => exact h
  | succ j ih =>
    rw [coarsest]
    cases hmultiple : cell.nearestMultiple? x (Nat.pow 10 (j + 1)) with
    | none => exact ih
    | some y => exact contains_of_nearestMultiple? hmultiple

end Cell

section Grid

/-- A unit on the grid. -/
def gridUnit : Nat := 4 * 5 ^ gridPlaces

theorem gridPlaces_pos : 0 < gridPlaces := by decide

theorem gridUnit_pos : 0 < gridUnit := by
  unfold gridUnit
  positivity

theorem onGrid_eq (b : Nat) : onGrid b = units b * gridUnit := by
  rw [onGrid, gridUnit, Nat.pow_eq]

theorem ten_pow_add_two (k : Nat) : 10 ^ (k + 2) = 4 * 5 ^ (k + 2) * 2 ^ k := by
  rw [show 10 = 5 * 2 from rfl, Nat.mul_pow, Nat.pow_add 2 k 2]
  ring

/-- The grid has room for every unit in one. -/
theorem ten_pow_gridPlaces : 10 ^ gridPlaces = gridUnit * unitsPerOne := by
  -- with a variable for the exponent no power is computed
  obtain ⟨k, hk⟩ : ∃ k, k = 1074 := ⟨_, rfl⟩
  have hplaces : gridPlaces = k + 2 := by rw [hk, gridPlaces]
  unfold gridUnit unitsPerOne
  rw [← hk, hplaces, Nat.pow_eq]
  exact ten_pow_add_two k

variable {b x : Nat}

/-- A cell is what lies between the midpoints. -/
theorem Cell.contains_iff : (Cell.ofBits b).contains x ↔ Within gridUnit b x := by
  -- a unit is an even number of steps, so that the midpoints are on the grid
  have heven : ∀ u v, (u + v) * gridUnit = 2 * ((u * gridUnit + v * gridUnit) / 2) := by
    intro u v
    have hhalf : gridUnit = 2 * (2 * 5 ^ gridPlaces) := by rw [gridUnit]; ring
    rw [← Nat.add_mul, hhalf, Nat.mul_left_comm, Nat.mul_div_cancel_left _ (by decide)]
  rw [contains, ofBits, onGrid_eq, onGrid_eq, onGrid_eq, within_iff, heven, heven]
  generalize (units (b - 1) * gridUnit + units b * gridUnit) / 2 = lower
  generalize (units b * gridUnit + units (b + 1) * gridUnit) / 2 = upper
  simp only [beq_iff_eq]
  split
  all_goals
    simp only [Bool.and_eq_true, decide_eq_true_eq]
    omega

/-- The number that is written for a double is in its cell. -/
theorem contains_shortest (b : Nat) : (Cell.ofBits b).contains (shortest b) :=
  Cell.contains_coarsest (Cell.contains_iff.2 (onGrid_eq b ▸ within_units gridUnit_pos b)) _

end Grid

/-! ### Its digits -/

section Positional

variable {places : Nat}

/-- Only zeros are cut off at the end. -/
theorem exists_replicate_zero (digits : List Char) : ∃ n,
    digits = digits.rdropWhile (· == '0') ++ List.replicate n '0' := by
  refine ⟨(digits.rtakeWhile (· == '0')).length, ?_⟩
  have hzeros : digits.rtakeWhile (· == '0') =
      List.replicate (digits.rtakeWhile (· == '0')).length '0' :=
    List.eq_replicate_iff.2 ⟨rfl, fun c hc => by simpa using List.mem_rtakeWhile_imp hc⟩
  rw [← hzeros, List.rdropWhile_append_rtakeWhile]

/-- The digits of a number, with zeros in front up to some number of places. -/
def paddedDigits (places x : Nat) : List Char :=
  List.replicate (places - (Nat.toDigits 10 x).length) '0' ++ Nat.toDigits 10 x

theorem isDigit_of_mem_toDigits {x : Nat} : ∀ c ∈ Nat.toDigits 10 x, c.isDigit :=
  fun _ hc => Nat.isDigit_of_mem_toDigits (by decide) (by decide) hc

theorem isDigit_of_mem_paddedDigits {x : Nat} : ∀ c ∈ paddedDigits places x, c.isDigit := by
  intro c hc
  rcases List.mem_append.1 hc with hc | hc
  · rw [List.eq_of_mem_replicate hc]
    rfl
  · exact isDigit_of_mem_toDigits c hc

section Padded

variable {x : Nat} (hplaces : 0 < places) (hx : x < 10 ^ places)
include hplaces hx

theorem length_paddedDigits : (paddedDigits places x).length = places := by
  have hdigits : (Nat.toDigits 10 x).length ≤ places :=
    (Nat.length_toDigits_le_iff (by decide) hplaces).2 hx
  rw [paddedDigits, List.length_append, List.length_replicate]
  omega

theorem ofDigitChars_paddedDigits (whole : Nat) :
    Nat.ofDigitChars 10 (paddedDigits places x) whole = whole * 10 ^ places + x := by
  have hlength := length_paddedDigits hplaces hx
  rw [Nat.ofDigitChars_eq_ofDigitChars_zero, hlength, Nat.mul_comm, paddedDigits,
    Nat.ofDigitChars_append, Nat.ofDigitChars_replicate_zero, Nat.mul_zero,
    Nat.ofDigitChars_ten_toDigits]

end Padded

/-- What is written for a number with decimal places is a lexeme that says the number. -/
theorem exists_lexeme_positional (hplaces : 0 < places) (x : Nat) : ∃ whole fraction,
    Lexeme (.number (read whole fraction)) (positional places x) ∧ fraction.length ≤ places ∧
      Nat.ofDigitChars 10 (whole ++ fraction) 0 * 10 ^ (places - fraction.length) = x := by
  have hmod : x % 10 ^ places < 10 ^ places := Nat.mod_lt _ (Nat.pow_pos (by decide))
  have hpositional : positional places x =
      let whole := Nat.toDigits 10 (x / 10 ^ places)
      let fraction := (paddedDigits places (x % 10 ^ places)).rdropWhile (· == '0')
      if fraction.isEmpty then whole else whole ++ '.' :: fraction := rfl
  obtain ⟨n, hn⟩ := exists_replicate_zero (paddedDigits places (x % 10 ^ places))
  rw [hpositional]
  generalize (paddedDigits places (x % 10 ^ places)).rdropWhile (· == '0') = fraction at *
  have hlength : places - fraction.length = n ∧ fraction.length ≤ places := by
    have := congrArg List.length hn
    rw [length_paddedDigits hplaces hmod, List.length_append, List.length_replicate] at this
    omega
  have hfraction : ∀ c ∈ fraction, c.isDigit := fun c hc =>
    isDigit_of_mem_paddedDigits c (hn ▸ List.mem_append_left _ hc)
  refine ⟨Nat.toDigits 10 (x / 10 ^ places), fraction, ?_, hlength.2, ?_⟩
  · dsimp only
    split
    next hempty =>
      obtain rfl := List.isEmpty_iff.1 hempty
      exact .integer Nat.toDigits_ne_nil isDigit_of_mem_toDigits
    next hnonempty =>
      exact .decimal Nat.toDigits_ne_nil isDigit_of_mem_toDigits (by simpa using hnonempty)
        hfraction
  · calc Nat.ofDigitChars 10 (Nat.toDigits 10 (x / 10 ^ places) ++ fraction) 0 *
          10 ^ (places - fraction.length)
        = Nat.ofDigitChars 10 (fraction ++ List.replicate n '0') (x / 10 ^ places) := by
          rw [hlength.1, Nat.ofDigitChars_append, Nat.ofDigitChars_append,
            Nat.ofDigitChars_ten_toDigits, Nat.ofDigitChars_replicate_zero, Nat.mul_comm]
      _ = x := by
          rw [← hn, ofDigitChars_paddedDigits hplaces hmod, Nat.mul_comm, Nat.div_add_mod]

end Positional

/-- What is written for a finite double is a lexeme of it. -/
theorem lexeme_shortest {b : Nat} (hb : b < infinityBits) :
    Lexeme (.number (.ofBits (.ofNat b))) (positional gridPlaces (shortest b)) := by
  obtain ⟨whole, fraction, hlexeme, hlength, hvalue⟩ :=
    exists_lexeme_positional gridPlaces_pos (shortest b)
  have hread : read whole fraction = .ofBits (.ofNat b) := by
    have hnearest : nearestBits (shortest b) (10 ^ gridPlaces) = b := by
      rw [ten_pow_gridPlaces]
      exact (Cell.contains_iff.1 (contains_shortest b)).nearestBits_eq gridUnit_pos hb
    have hpow : Nat.pow 10 fraction.length * 10 ^ (gridPlaces - fraction.length) =
        10 ^ gridPlaces := by
      rw [Nat.pow_eq, ← Nat.pow_add, Nat.add_sub_cancel' hlength]
    rw [read, ← nearestBits_mul (c := 10 ^ (gridPlaces - fraction.length))
      (Nat.pow_pos (by decide)), hvalue, hpow, hnearest]
  exact hread ▸ hlexeme

/-- The text of a finite double is a lexeme of it, or a minus sign and a lexeme of its negative. -/
theorem lexeme_text {x : Float} (h : x.isFinite) : Lexeme (.number x) (text x).toList ∨
    ∃ y digits, x = -y ∧ (text x).toList = '-' :: digits ∧ Lexeme (.number y) digits := by
  obtain ⟨b, hb, hcases⟩ := exists_magnitude h
  have hsign : infinityBits < signBit := by decide
  have hdigits : textOfBits b = positional gridPlaces (shortest b) := if_pos hb
  have hlexeme := lexeme_shortest hb
  rcases hcases with ⟨hbits, hx⟩ | ⟨hbits, hx⟩
  · left
    have hmod : b % signBit = b := Nat.mod_eq_of_lt (hb.trans hsign)
    rw [text, hbits, hmod, if_neg (by omega), String.toList_ofList, hdigits]
    exact hx ▸ hlexeme
  · have hmod : (signBit + b) % signBit = b := by
      rw [Nat.add_mod_left]
      exact Nat.mod_eq_of_lt (hb.trans hsign)
    refine .inr ⟨_, _, hx, ?_, hlexeme⟩
    rw [text, hbits, hmod, if_pos ⟨Nat.le_add_right _ _, hb.le⟩, String.toList_ofList, hdigits]

end LoxCalc.Decimal
