import LoxCalc.Proofs.Eval.Postorder
import Mathlib.Logic.Basic

/-!
# The dialects compared

The strict dialect refuses some sums and agrees with the standard one on everything else. Main
statement: `strict_restricts`, a strict value is the standard value, and a strict fault is the
standard fault unless it is at a sum of a string and something else, which comes before the
standard fault.
-/

namespace LoxCalc

namespace Eval

/-- Whether exactly one of two values is a string. -/
def OneString (a b : Value) : Prop := Xor (a.kind = .string) (b.kind = .string)

theorem sum_strict_cases (a b : Value) : sum .strict a b = sum .standard a b ∨
    OneString a b ∧ sum .strict a b = .error .operandsMustBeNumbersOrStrings ∧
      ∃ s, sum .standard a b = .ok (.string s) := by
  cases a <;> cases b <;> simp [sum, OneString, Value.kind, Xor]

/-- The dialects agree on the operators, but for a sum with exactly one string. -/
theorem applyBinary_strict_cases (op : Token.Kind) (a b : Value) :
    applyBinary .strict op a b = applyBinary .standard op a b ∨
      op = .symbol .plus ∧ OneString a b ∧
        applyBinary .strict op a b = .error .operandsMustBeNumbersOrStrings ∧
          ∃ s, applyBinary .standard op a b = .ok (.string s) := by
  by_cases hop : op = .symbol .plus
  · subst hop
    rcases sum_strict_cases a b with heq | hone
    · exact .inl heq
    · exact .inr ⟨rfl, hone⟩
  · left
    unfold applyBinary
    split <;> simp_all

end Eval

namespace Expr

open Eval (Fault)

/-- Whether a node is a sum of which exactly one operand is a string. -/
inductive MixedSum (d : Dialect) : Expr → Token → Prop
  | intro {left right : Expr} {op : Token} {a b : Value} (plus : op.kind = .symbol .plus)
      (left_eq : left.eval d = .ok a) (right_eq : right.eval d = .ok b)
      (oneString : Eval.OneString a b) : MixedSum d (.binary left op right) op

/-- A strict value is the standard value. -/
theorem eval_standard_of_strict {e : Expr} {v : Value} (h : e.eval .strict = .ok v) :
    e.eval .standard = .ok v := by
  induction e generalizing v with
  | literal value => exact h
  | grouping inner ih => exact ih h
  | unary op operand ih =>
    obtain ⟨a, ha, happly⟩ := eval_unary_eq_ok_iff.1 h
    exact eval_unary_eq_ok_iff.2 ⟨a, ih ha, happly⟩
  | binary left op right ihl ihr =>
    obtain ⟨a, b, ha, hb, happly⟩ := eval_binary_eq_ok_iff.1 h
    refine eval_binary_eq_ok_iff.2 ⟨a, b, ihl ha, ihr hb, ?_⟩
    rcases Eval.applyBinary_strict_cases op.kind a b with heq | ⟨-, -, hrefused, -⟩
    · exact heq ▸ happly
    · cases hrefused.symm.trans happly

theorem HasValue.standard {e : Expr} (h : e.HasValue .strict) : e.HasValue .standard := by
  obtain ⟨v, hv⟩ := h
  exact ⟨v, eval_standard_of_strict hv⟩

/-- What is reached in the strict dialect is reached in the standard one. -/
theorem Reaches.standard {e node : Expr} {before : List Expr}
    (h : e.Reaches .strict before node) : e.Reaches .standard before node :=
  ⟨h.place, fun n hn => (h.values n hn).standard⟩

/-- A node that the strict dialect refuses is refused by the standard one, or it is a sum with
exactly one string, which the standard one allows. -/
theorem Refuses.standard_or_mixedSum {node : Expr} {fault : Fault}
    (h : node.Refuses .strict fault) : node.Refuses .standard fault ∨
      fault.cause = .operandsMustBeNumbersOrStrings ∧
        node.MixedSum .standard fault.operator ∧ node.HasValue .standard := by
  cases h with
  | unary operand_eq refused =>
    exact .inl (.unary (eval_standard_of_strict operand_eq) refused)
  | @binary left right op a b cause left_eq right_eq refused =>
    have hleft := eval_standard_of_strict left_eq
    have hright := eval_standard_of_strict right_eq
    rcases Eval.applyBinary_strict_cases op.kind a b with heq | ⟨hplus, hone, hcause, s, hs⟩
    · exact .inl (.binary hleft hright (heq ▸ refused))
    · obtain rfl := Except.error.inj (hcause.symm.trans refused)
      exact .inr ⟨rfl, .intro hplus hleft hright hone,
        ⟨_, eval_binary_eq_ok_iff.2 ⟨a, b, hleft, hright, hs⟩⟩⟩

/-- The strict dialect restricts the standard one. A strict value is the standard value. Where the
standard dialect has a fault, the strict one has the same fault at the same node, or it refuses a
sum with exactly one string at a node before that. Any other strict fault is the standard fault.
If no such sum is reached, the outcomes are equal. -/
theorem strict_restricts (e : Expr) :
    (∀ v, e.eval .strict = .ok v → e.eval .standard = .ok v) ∧
    (∀ fault, e.eval .standard = .error fault →
      ∃ before node, e.FailsAt .standard before node fault ∧
        (e.FailsAt .strict before node fault ∨
          ∃ front sum between op, before = front ++ sum :: between ∧ sum.MixedSum .standard op ∧
            e.FailsAt .strict front sum ⟨.operandsMustBeNumbersOrStrings, op⟩)) ∧
    (∀ fault, e.eval .strict = .error fault → fault.cause ≠ .operandsMustBeNumbersOrStrings →
      e.eval .standard = .error fault) ∧
    ((∀ before node op, e.Reaches .standard before node → ¬node.MixedSum .standard op) →
      e.eval .strict = e.eval .standard) := by
  refine ⟨fun v => eval_standard_of_strict, fun fault h => ?_, fun fault h hcause => ?_,
    fun hnone => ?_⟩
  · obtain ⟨before, node, hfails⟩ := exists_failsAt h
    refine ⟨before, node, hfails, ?_⟩
    cases hstrict : e.eval .strict with
    | ok v => cases h.symm.trans (eval_standard_of_strict hstrict)
    | error fault' =>
      obtain ⟨front, sum, hsum⟩ := exists_failsAt hstrict
      rcases hsum.refuses.standard_or_mixedSum with hrefuses | ⟨hcause, hmixed, hvalue⟩
      · -- the node that fails first in the strict dialect fails in the standard one too
        obtain ⟨rfl, rfl⟩ := hfails.reaches.unique hfails.refuses.not_hasValue
          hsum.reaches.standard hrefuses.not_hasValue
        obtain rfl := Except.error.inj (hrefuses.eval_eq.symm.trans hfails.refuses.eval_eq)
        exact .inl hsum
      · -- the sum has a standard value, so the standard fault comes later
        obtain ⟨op, rfl⟩ : ∃ op, fault' = ⟨.operandsMustBeNumbersOrStrings, op⟩ :=
          ⟨fault'.operator, by rw [← hcause]⟩
        rcases hfails.reaches.eq_or_exists_between hfails.refuses.not_hasValue
          hsum.reaches.standard with ⟨-, rfl⟩ | ⟨between, hbetween⟩
        · exact absurd hvalue hfails.refuses.not_hasValue
        · exact .inr ⟨front, sum, between, op, hbetween, hmixed, hsum⟩
  · obtain ⟨before, node, hfails⟩ := exists_failsAt h
    rcases hfails.refuses.standard_or_mixedSum with hrefuses | ⟨hmixed, -, -⟩
    · exact (hfails.reaches.standard.failsAt hrefuses).eval_eq
    · exact absurd hmixed hcause
  · cases h : e.eval .strict with
    | ok v => exact (eval_standard_of_strict h).symm
    | error fault =>
      obtain ⟨before, node, hfails⟩ := exists_failsAt h
      have hreaches := hfails.reaches.standard
      rcases hfails.refuses.standard_or_mixedSum with hrefuses | ⟨-, hmixed, -⟩
      · exact (hreaches.failsAt hrefuses).eval_eq.symm
      · exact absurd hmixed (hnone before node _ hreaches)

/-- A difference with a string is a fault in the standard dialect, but the strict one does not come
to it if the string is itself a sum with something else. -/
theorem strict_restricts_difference :
    let plus : Token := ⟨.symbol .plus, "+", 1⟩
    let minus : Token := ⟨.symbol .minus, "-", 1⟩
    let e := binary (binary (literal (.string "a")) plus (literal .nil)) minus (literal .nil)
    let fault : Fault := ⟨.operandsMustBeNumbers, minus⟩
    e.eval .standard = .error fault ∧
      e.eval .strict = .error ⟨.operandsMustBeNumbersOrStrings, plus⟩ ∧
      ∃ before node, e.FailsAt .standard before node fault ∧
        (e.FailsAt .strict before node fault ∨
          ∃ front sum between op, before = front ++ sum :: between ∧ sum.MixedSum .standard op ∧
            e.FailsAt .strict front sum ⟨.operandsMustBeNumbersOrStrings, op⟩) :=
  ⟨rfl, rfl, (strict_restricts _).2.1 _ rfl⟩

end Expr

end LoxCalc
