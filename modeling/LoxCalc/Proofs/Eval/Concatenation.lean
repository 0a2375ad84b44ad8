import LoxCalc.Proofs.Eval.Postorder

/-!
# Chains of sums

A sum of a string and something else is a string, so a chain of sums that starts with a string goes
on as one, and what it has so far only grows at its end. Main statement: `eval_sumChain`, the value
of such a chain is the texts of all its parts one behind the other; the strict dialect stops at the
first part that is no string.
-/

namespace LoxCalc

namespace Eval

variable {a b : Value}

/-- The standard sum of values with a string among them is their texts joined, in their order. -/
theorem sum_standard_of_string (h : a.kind = .string ∨ b.kind = .string) :
    sum .standard a b = .ok (.string (a.text ++ b.text)) := by
  cases a <;> cases b <;> simp_all [sum, Value.kind, Value.text]

/-- The strict sum of a string and another value is a string only if the other value is one. -/
theorem sum_strict_string (s : String) (b : Value) : sum .strict (.string s) b =
    if b.kind = .string then .ok (.string (s ++ b.text))
    else .error .operandsMustBeNumbersOrStrings := by
  cases b <;> simp [sum, Value.kind, Value.text]

/-- Whether a dialect refuses to put a value behind a string. -/
def refusesBehindString : Dialect → Value → Bool
  | .standard, _ => false
  | .strict, b => b.kind ≠ .string

theorem sum_string (d : Dialect) (s : String) (b : Value) : sum d (.string s) b =
    if refusesBehindString d b then .error .operandsMustBeNumbersOrStrings
    else .ok (.string (s ++ b.text)) := by
  cases d with
  | standard => exact sum_standard_of_string (.inl rfl)
  | strict =>
    rw [sum_strict_string]
    by_cases hb : b.kind = .string
    · simp [refusesBehindString, hb]
    · simp [refusesBehindString, hb]

end Eval

/-- A part of a chain of sums behind its first part: the plus sign in front of it, and a tree that
has a value. -/
structure Summand (d : Dialect) where
  op : Token
  expr : Expr
  value : Value
  isPlus : op.kind = .symbol .plus
  eval_eq : expr.eval d = .ok value

namespace Summand

variable {d : Dialect}

/-- Whether a part cannot be put behind a string. -/
def isRefused (x : Summand d) : Bool := Eval.refusesBehindString d x.value

end Summand

namespace Expr

open Eval (Fault)

variable {d : Dialect}

/-- A chain of sums, grouped to the left. -/
def sumChain (first : Expr) (xs : List (Summand d)) : Expr :=
  xs.foldl (fun left x => .binary left x.op x.expr) first

theorem eval_binary_of_ok {left right : Expr} {op : Token} {a b : Value}
    (hleft : left.eval d = .ok a) (hright : right.eval d = .ok b) :
    (binary left op right).eval d = (Eval.applyBinary d op.kind a b).mapError (⟨·, op⟩) := by
  rw [eval, hleft, hright]

/-- One part more: the texts are joined, or the fault is at the plus sign in front of the part. -/
theorem eval_binary_summand {first : Expr} {s : String} (h : first.eval d = .ok (.string s))
    (x : Summand d) : (binary first x.op x.expr).eval d =
      if x.isRefused then .error ⟨.operandsMustBeNumbersOrStrings, x.op⟩
      else .ok (.string (s ++ x.value.text)) := by
  have hsum :
      Eval.applyBinary d x.op.kind (.string s) x.value = Eval.sum d (.string s) x.value := by
    rw [x.isPlus]
    rfl
  rw [eval_binary_of_ok h x.eval_eq, hsum, Eval.sum_string, Summand.isRefused]
  split <;> rfl

/-- A fault at the front of a chain is the fault of the chain. -/
theorem eval_sumChain_of_error {first : Expr} {fault : Fault} (h : first.eval d = .error fault)
    (xs : List (Summand d)) : (first.sumChain xs).eval d = .error fault := by
  induction xs generalizing first with
  | nil => exact h
  | cons x xs ih => exact ih (by rw [eval, h])

/-- A chain that starts with a string is all its texts joined, if no part is refused. -/
theorem eval_sumChain_of_string {first : Expr} {s : String}
    (h : first.eval d = .ok (.string s)) (xs : List (Summand d)) : (first.sumChain xs).eval d =
      match xs.find? Summand.isRefused with
      | none => .ok (.string (s ++ String.join (xs.map (·.value.text))))
      | some x => .error ⟨.operandsMustBeNumbersOrStrings, x.op⟩ := by
  induction xs generalizing first s with
  | nil => simpa [sumChain] using h
  | cons x xs ih =>
    have hstep := eval_binary_summand h x
    cases hx : x.isRefused with
    | true =>
      rw [if_pos hx] at hstep
      rw [List.find?_cons_of_pos hx]
      exact eval_sumChain_of_error hstep xs
    | false =>
      rw [if_neg (by simp [hx])] at hstep
      rw [List.find?_cons_of_neg (by simp [hx]), List.map_cons, String.join_cons,
        ← String.append_assoc]
      exact ih hstep

/-- A chain of sums that starts with a string neither drops nor reorders anything. In the standard
dialect its value is the texts of all its parts, of whatever types, one behind the other. In the
strict dialect it is the same if all parts are strings, and otherwise the fault is at the plus sign
in front of the first part that is none. In the standard dialect any sum with a string on either
side is the texts of both sides joined. -/
theorem eval_sumChain :
    (∀ (first : Expr) (s : String), first.eval .standard = .ok (.string s) →
      ∀ xs : List (Summand .standard), (first.sumChain xs).eval .standard =
        .ok (.string (s ++ String.join (xs.map (·.value.text))))) ∧
    (∀ (first : Expr) (s : String), first.eval .strict = .ok (.string s) →
      ∀ xs : List (Summand .strict), (first.sumChain xs).eval .strict =
        match xs.find? (·.value.kind ≠ .string) with
        | none => .ok (.string (s ++ String.join (xs.map (·.value.text))))
        | some x => .error ⟨.operandsMustBeNumbersOrStrings, x.op⟩) ∧
    ∀ (left right : Expr) (op : Token) (a b : Value), op.kind = .symbol .plus →
      left.eval .standard = .ok a → right.eval .standard = .ok b →
      a.kind = .string ∨ b.kind = .string →
        (binary left op right).eval .standard = .ok (.string (a.text ++ b.text)) := by
  refine ⟨fun first s h xs => ?_, fun first s h xs => ?_,
    fun left right op a b hplus hleft hright hstring => ?_⟩
  · have hnone : xs.find? Summand.isRefused = none :=
      List.find?_eq_none.2 fun x _ => Bool.false_ne_true
    rw [eval_sumChain_of_string h, hnone]
  · have hrefused : (fun x : Summand .strict => decide (x.value.kind ≠ .string)) =
        Summand.isRefused := rfl
    rw [eval_sumChain_of_string h, hrefused]
    cases xs.find? Summand.isRefused <;> rfl
  · rw [eval_binary_of_ok hleft hright, hplus, Eval.applyBinary,
      Eval.sum_standard_of_string hstring]
    rfl

/-- The standard dialect joins a string, nil and a truth value; the strict one stops at nil, though
strings stand on both sides of it. -/
theorem eval_sumChain_mixed :
    let plus (line : Nat) : Token := ⟨.symbol .plus, "+", line⟩
    let first := literal (.string "a")
    let e := binary (binary (binary first (plus 1) (literal (.string "b"))) (plus 2) (literal .nil))
      (plus 3) (literal (.string "c"))
    e.eval .standard = .ok (.string "abnilc") ∧
      e.eval .strict = .error ⟨.operandsMustBeNumbersOrStrings, plus 2⟩ ∧
      (binary (literal .nil) (plus 4) first).eval .standard = .ok (.string "nila") := by
  intro plus first e
  let parts (d : Dialect) : List (Summand d) :=
    [⟨plus 1, literal (.string "b"), .string "b", rfl, rfl⟩, ⟨plus 2, literal .nil, .nil, rfl, rfl⟩,
      ⟨plus 3, literal (.string "c"), .string "c", rfl, rfl⟩]
  obtain ⟨hstandard, hstrict, hsum⟩ := eval_sumChain
  exact ⟨hstandard first "a" rfl (parts .standard), hstrict first "a" rfl (parts .strict),
    hsum (literal .nil) first (plus 4) .nil _ rfl rfl rfl (.inr rfl)⟩

end Expr

end LoxCalc
