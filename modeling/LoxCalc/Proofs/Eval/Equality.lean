import LoxCalc.Proofs.Decimal.Patterns
import LoxCalc.Proofs.Eval.Postorder

/-!
# Equality

Values are equal in the language if they are the same and not the double that is no number, or if
they are the two zeros. So equality is symmetric and transitive, and equal values cannot be told
apart but by the texts of the zeros. Main statement: `equals_consistent`, which says that of values
and of the two operators that compare them.
-/

namespace LoxCalc

namespace Value

/-- Whether a value is the double that is no number. -/
def isNaN : Value → Bool
  | number x => x.isNaN
  | _ => false

/-- The two zeros, in either order. -/
inductive OppositeZeros : Value → Value → Prop
  | positive : OppositeZeros (number (.ofBits 0)) (number (.ofBits 0x8000000000000000))
  | negative : OppositeZeros (number (.ofBits 0x8000000000000000)) (number (.ofBits 0))

section

variable {a b c : Value}

theorem OppositeZeros.symm (h : OppositeZeros a b) : OppositeZeros b a := by
  cases h with
  | positive => exact .negative
  | negative => exact .positive

theorem OppositeZeros.not_isNaN (h : OppositeZeros a b) : ¬a.isNaN := by
  cases h <;> decide +kernel

theorem OppositeZeros.text_ne (h : OppositeZeros a b) : a.text ≠ b.text := by
  cases h <;> decide +kernel

theorem equals_number_iff {x y : Float} : (number x).equals (number y) ↔
    (x = y ∧ ¬x.isNaN) ∨ OppositeZeros (number x) (number y) := by
  have hequals : (number x).equals (number y) = (x == y) := rfl
  rw [hequals, Float.beq_iff_ne_nan_and_eq, Float.isNaN_eq_decide_eq_nan, decide_eq_true_iff,
    Decimal.neg_zero_eq, Decimal.zero_eq]
  constructor
  · rintro ⟨hx, -, rfl | ⟨rfl, rfl⟩ | ⟨rfl, rfl⟩⟩
    · exact .inl ⟨rfl, hx⟩
    · exact .inr .positive
    · exact .inr .negative
  · rintro (⟨rfl, hx⟩ | h)
    · exact ⟨hx, hx, .inl rfl⟩
    · cases h with
      | positive => exact ⟨by decide +kernel, by decide +kernel, .inr (.inl ⟨rfl, rfl⟩)⟩
      | negative => exact ⟨by decide +kernel, by decide +kernel, .inr (.inr ⟨rfl, rfl⟩)⟩

/-- Equal values are the same or the two zeros. -/
theorem equals_iff : a.equals b ↔ (a = b ∧ ¬a.isNaN) ∨ OppositeZeros a b := by
  have hzeros : OppositeZeros a b → a.kind = .number ∧ b.kind = .number := by
    rintro (_ | _) <;> exact ⟨rfl, rfl⟩
  cases a with
  | number x =>
    cases b with
    | number y => simpa [isNaN] using equals_number_iff
    | _ => simp_all [equals, kind]
  | string s => cases b <;> simp_all [equals, isNaN, kind]
  | boolean p => cases b <;> simp_all [equals, isNaN, kind]
  | nil => cases b <;> simp_all [equals, isNaN, kind]

theorem equals_eq_beq (a b : Value) : a.equals b = (a == b) := by
  cases a <;> cases b <;> rfl

theorem equals_comm (a b : Value) : a.equals b = b.equals a := by
  have hswap : ∀ {a b : Value}, a.equals b → b.equals a := by
    intro a b h
    rcases equals_iff.1 h with ⟨rfl, -⟩ | hzeros
    · exact h
    · exact equals_iff.2 (.inr hzeros.symm)
  exact Bool.eq_iff_iff.2 ⟨hswap, hswap⟩

theorem equals_trans (h : a.equals b) (h' : b.equals c) : a.equals c := by
  rcases equals_iff.1 h with ⟨rfl, -⟩ | hzeros
  · exact h'
  rcases equals_iff.1 h' with ⟨rfl, -⟩ | hzeros'
  · exact h
  -- from one zero to the other and back
  have hac : a = c := by cases hzeros <;> cases hzeros' <;> rfl
  exact equals_iff.2 (.inl ⟨hac, hzeros.not_isNaN⟩)

theorem equals_self (a : Value) : a.equals a = !a.isNaN := by
  have hnone : ¬OppositeZeros a a := fun h => h.text_ne rfl
  rw [Bool.eq_iff_iff, equals_iff]
  simp [hnone]

theorem kind_eq_of_equals (h : a.equals b) : a.kind = b.kind := by
  rcases equals_iff.1 h with ⟨rfl, -⟩ | (_ | _) <;> rfl

theorem isTruthy_eq_of_equals (h : a.equals b) : a.isTruthy = b.isTruthy := by
  rcases equals_iff.1 h with ⟨rfl, -⟩ | (_ | _) <;> rfl

theorem text_eq_iff_of_equals (h : a.equals b) : a.text = b.text ↔ ¬OppositeZeros a b := by
  constructor
  · exact fun htext hzeros => hzeros.text_ne htext
  · intro hnot
    rcases equals_iff.1 h with ⟨rfl, -⟩ | hzeros
    · rfl
    · exact absurd hzeros hnot

end

end Value

namespace Expr

open Eval (Fault)

variable {d : Dialect} {left right : Expr} {eq ne : Token}

/-- Two comparisons of the same operands, for equality and for the opposite, have opposite values or
the same fault, which is that of an operand. -/
theorem eval_equality_cases (heq : eq.kind = .symbol .equalEqual)
    (hne : ne.kind = .symbol .bangEqual) :
    (∃ a b, left.eval d = .ok a ∧ right.eval d = .ok b ∧
      (binary left eq right).eval d = .ok (.boolean (a.equals b)) ∧
      (binary left ne right).eval d = .ok (.boolean (!a.equals b))) ∨
    ∃ fault, (left.eval d = .error fault ∨ left.HasValue d ∧ right.eval d = .error fault) ∧
      (binary left eq right).eval d = .error fault ∧
      (binary left ne right).eval d = .error fault := by
  cases hleft : left.eval d with
  | error fault => exact .inr ⟨fault, .inl rfl, by rw [eval, hleft], by rw [eval, hleft]⟩
  | ok a =>
    cases hright : right.eval d with
    | error fault =>
      exact .inr ⟨fault, .inr ⟨⟨a, hleft⟩, rfl⟩, by rw [eval, hleft, hright],
        by rw [eval, hleft, hright]⟩
    | ok b =>
      refine .inl ⟨a, b, rfl, rfl, ?_, ?_⟩
      · exact eval_binary_eq_ok_iff.2 ⟨a, b, hleft, hright, by rw [heq, Eval.applyBinary]⟩
      · exact eval_binary_eq_ok_iff.2 ⟨a, b, hleft, hright, by rw [hne, Eval.applyBinary]⟩

end Expr

namespace Value

open Decimal (magnitude infinityBits)

/-- Equality in the language agrees with equality of values and is consistent with the rest of the
language. It is symmetric and transitive, and a value is equal to itself unless it is no number.
Numbers are compared as IEEE 754 says: both patterns are those of numbers, and they are the same or
both of zeros. Values of different types are never equal; equal values have one type, count as true
together, and have the same text unless they are the two zeros. For any operands, the two
comparisons have opposite values if both operands have values, and otherwise the fault of the first
operand that has none; so they have no fault of their own. -/
theorem equals_consistent :
    (∀ a b : Value, a.equals b = (a == b)) ∧
    (∀ a b : Value, a.equals b = b.equals a) ∧
    (∀ a b c : Value, a.equals b → b.equals c → a.equals c) ∧
    (∀ a : Value, a.equals a = !a.isNaN) ∧
    (∀ p q : UInt64, (number (.ofBits p)).equals (number (.ofBits q)) ↔
      magnitude p ≤ infinityBits ∧ magnitude q ≤ infinityBits ∧
        (p = q ∨ magnitude p = 0 ∧ magnitude q = 0)) ∧
    (∀ a b : Value, a.kind ≠ b.kind → ¬a.equals b) ∧
    (∀ a b : Value, a.equals b → a.kind = b.kind ∧ a.isTruthy = b.isTruthy ∧
      (a.text = b.text ↔ ¬OppositeZeros a b)) ∧
    ∀ (d : Dialect) (x y : Expr) (eq ne : Token), eq.kind = .symbol .equalEqual →
      ne.kind = .symbol .bangEqual →
        (∃ a b, x.eval d = .ok a ∧ y.eval d = .ok b ∧
          (Expr.binary x eq y).eval d = .ok (.boolean (a.equals b)) ∧
          (Expr.binary x ne y).eval d = .ok (.boolean (!a.equals b))) ∨
        ∃ fault, (x.eval d = .error fault ∨ x.HasValue d ∧ y.eval d = .error fault) ∧
          (Expr.binary x eq y).eval d = .error fault ∧
          (Expr.binary x ne y).eval d = .error fault := by
  refine ⟨equals_eq_beq, equals_comm, fun a b c => equals_trans, equals_self, fun p q => ?_,
    fun a b hkind h => hkind (kind_eq_of_equals h), fun a b h => ?_,
    fun d x y eq ne heq hne => Expr.eval_equality_cases heq hne⟩
  · exact Decimal.beq_ofBits_iff
  · exact ⟨kind_eq_of_equals h, isTruthy_eq_of_equals h, text_eq_iff_of_equals h⟩

/-- The two zeros are equal in either order, so that each is equal to itself, though their texts
differ; a string is not equal to the number that it reads like; and no comparison of the zeros has
a fault. -/
theorem equals_consistent_zeros :
    let zero : Value := number (.ofBits 0)
    let negative : Value := number (.ofBits 0x8000000000000000)
    let ne : Token := ⟨.symbol .bangEqual, "!=", 1⟩
    zero.equals negative ∧ negative.equals zero ∧ zero.equals zero ∧ zero.text ≠ negative.text ∧
      ¬(string "0").equals zero ∧
      (Expr.binary (.literal zero) ne (.literal negative)).eval .strict = .ok (.boolean false) := by
  intro zero negative ne
  obtain ⟨-, -, htrans, -, hpattern, hkind, htext, hcompare⟩ := equals_consistent
  have h : zero.equals negative := (hpattern _ _).2 (by decide)
  have h' : negative.equals zero := (hpattern _ _).2 (by decide)
  refine ⟨h, h', htrans _ _ _ h h', fun heq => (htext _ _ h).2.2.1 heq .positive,
    hkind _ _ (by decide), ?_⟩
  rcases hcompare .strict (.literal zero) (.literal negative)
    ⟨.symbol .equalEqual, "==", 1⟩ ne rfl rfl with ⟨a, b, ha, hb, -, hne⟩ | ⟨_, hfault | hfault, -⟩
  · obtain rfl := Except.ok.inj ha
    obtain rfl := Except.ok.inj hb
    rw [hne, h]
    rfl
  · cases hfault
  · cases hfault.2

end Value

end LoxCalc
