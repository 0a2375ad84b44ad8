import LoxCalc.Proofs.Eval.Postorder
import LoxCalc.Proofs.Expr.Counter

/-!
# Operators in their places

The grammar, the two lists of operators and evaluation each say on their own what an operator is:
which ones a level takes, which ones a node can be made with, and which ones can be applied. Main
statement: `eval_unknownOperator`, they agree. No tree that was read has an operator out of place,
an unknown operator is one out of place, and one out of place is never applied to anything.
-/

namespace LoxCalc

namespace Eval

/-- What is no unary operator is unknown before an operand, of whatever type. -/
theorem applyUnary_eq_unknownOperator_iff {op : Token.Kind} {a : Value} :
    applyUnary op a = .error .unknownOperator ↔ ¬op.isUnaryOperator := by
  unfold applyUnary
  split
  case h_1 => cases a <;> simp [Token.Kind.isUnaryOperator]
  case h_2 => simp [Token.Kind.isUnaryOperator]
  case h_3 hminus hbang =>
    have hnot : ¬op.isUnaryOperator := by
      unfold Token.Kind.isUnaryOperator
      split <;> simp_all
    simp [hnot]

theorem arithmetic_ne_unknownOperator (f : Float → Float → Float) (a b : Value) :
    arithmetic f a b ≠ .error .unknownOperator := by
  cases a <;> cases b <;> simp [arithmetic]

theorem comparison_ne_unknownOperator (f : Float → Float → Bool) (a b : Value) :
    comparison f a b ≠ .error .unknownOperator := by
  cases a <;> cases b <;> simp [comparison]

theorem sum_ne_unknownOperator (d : Dialect) (a b : Value) :
    sum d a b ≠ .error .unknownOperator := by
  cases d <;> cases a <;> cases b <;> simp [sum, Value.kind]

/-- What is no binary operator is unknown between operands, of whatever types. -/
theorem applyBinary_eq_unknownOperator_iff {d : Dialect} {op : Token.Kind} {a b : Value} :
    applyBinary d op a b = .error .unknownOperator ↔ ¬op.isBinaryOperator := by
  unfold applyBinary
  split
  case h_1 => simp [Token.Kind.isBinaryOperator, sum_ne_unknownOperator]
  case h_2 | h_3 | h_4 => simp [Token.Kind.isBinaryOperator, arithmetic_ne_unknownOperator]
  case h_5 | h_6 | h_7 | h_8 => simp [Token.Kind.isBinaryOperator, comparison_ne_unknownOperator]
  case h_9 | h_10 => simp [Token.Kind.isBinaryOperator]
  case h_11 =>
    have hnot : ¬op.isBinaryOperator := by
      unfold Token.Kind.isBinaryOperator
      split <;> simp_all
    simp [hnot]

end Eval

namespace Expr

open Eval (Fault)

/-- Whether the operator of a node cannot stand there. -/
inductive Misplaces : Expr → Token → Prop
  | unary {op : Token} {operand : Expr} (not_unary : ¬op.kind.isUnaryOperator) :
      Misplaces (.unary op operand) op
  | binary {left right : Expr} {op : Token} (not_binary : ¬op.kind.isBinaryOperator) :
      Misplaces (.binary left op right) op

/-- Every operator of a layered tree is in its place. -/
theorem Layered.not_misplaces {l : Level} {e : Expr} (h : Layered l e) :
    ∀ n ∈ e.postorder, ∀ t, ¬n.Misplaces t := by
  induction h with
  | literal value =>
    intro n hn t hmisplaces
    obtain rfl := List.mem_singleton.1 hn
    cases hmisplaces
  | grouping layered ih =>
    intro n hn t hmisplaces
    rcases List.mem_append.1 hn with hn | hn
    · exact ih n hn t hmisplaces
    · obtain rfl := List.mem_singleton.1 hn
      cases hmisplaces
  | unary isUnary layered le ih =>
    intro n hn t hmisplaces
    rcases List.mem_append.1 hn with hn | hn
    · exact ih n hn t hmisplaces
    · obtain rfl := List.mem_singleton.1 hn
      cases hmisplaces with
      | unary not_unary => exact not_unary isUnary
  | binary takes left_layered left_le right_layered right_lt ihl ihr =>
    intro n hn t hmisplaces
    rcases List.mem_append.1 hn with hn | hn
    · rcases List.mem_append.1 hn with hn | hn
      · exact ihl n hn t hmisplaces
      · exact ihr n hn t hmisplaces
    · obtain rfl := List.mem_singleton.1 hn
      cases hmisplaces with
      | binary not_binary => exact not_binary (Token.Kind.isBinaryOperator_iff.2 ⟨_, takes⟩)

/-- Every operator of a tree that was read is in its place. -/
theorem not_misplaces_of_parse {p q : Parser} {e : Expr} (h : p.parse = (.ok e, q)) :
    ∀ n ∈ e.postorder, ∀ t, ¬n.Misplaces t := by
  obtain ⟨rest, hreads, -, -⟩ := Parser.parse_eq_ok_iff.1 h
  obtain ⟨⟨l, -, hlayered⟩, -⟩ := hreads.layered
  exact hlayered.not_misplaces

/-- A node is at fault for an unknown operator if its operator is out of place, and only then. -/
theorem refuses_unknownOperator_iff {d : Dialect} {n : Expr} {t : Token} :
    n.Refuses d ⟨.unknownOperator, t⟩ ↔ n.Misplaces t ∧ ∀ e ∈ n.operands, e.HasValue d := by
  constructor
  · intro h
    cases h with
    | unary operand_eq refused =>
      refine ⟨.unary (Eval.applyUnary_eq_unknownOperator_iff.1 refused), ?_⟩
      simpa [operands] using ⟨_, operand_eq⟩
    | binary left_eq right_eq refused =>
      refine ⟨.binary (Eval.applyBinary_eq_unknownOperator_iff.1 refused), ?_⟩
      simpa [operands] using ⟨⟨_, left_eq⟩, ⟨_, right_eq⟩⟩
  · rintro ⟨hmisplaces, hvalues⟩
    cases hmisplaces with
    | unary not_unary =>
      obtain ⟨a, ha⟩ := hvalues _ List.mem_cons_self
      exact .unary ha (Eval.applyUnary_eq_unknownOperator_iff.2 not_unary)
    | binary not_binary =>
      obtain ⟨a, ha⟩ := hvalues _ List.mem_cons_self
      obtain ⟨b, hb⟩ := hvalues _ (List.mem_cons_of_mem _ List.mem_cons_self)
      exact .binary ha hb (Eval.applyBinary_eq_unknownOperator_iff.2 not_binary)

theorem exists_misplaces {d : Dialect} {e : Expr} {t : Token}
    (h : e.eval d = .error ⟨.unknownOperator, t⟩) : ∃ n ∈ e.postorder, n.Misplaces t := by
  obtain ⟨before, n, hfails⟩ := exists_failsAt h
  obtain ⟨after, hplace⟩ := hfails.reaches.place
  exact ⟨n, by simp [hplace], (refuses_unknownOperator_iff.1 hfails.refuses).1⟩

/-- All agree on what an operator is. In a tree that a parser reads, every operator is in its place,
and no dialect finds an unknown one. In any tree, an unknown operator is that of a node where it
cannot stand; and a node with such an operator whose operands have values, of whatever types, is at
fault for it. -/
theorem eval_unknownOperator :
    (∀ (p q : Parser) (e : Expr), p.parse = (.ok e, q) →
      (∀ n ∈ e.postorder, ∀ t, ¬n.Misplaces t) ∧
        ∀ d t, e.eval d ≠ .error ⟨.unknownOperator, t⟩) ∧
    (∀ d (e : Expr) t, e.eval d = .error ⟨.unknownOperator, t⟩ →
      ∃ n ∈ e.postorder, n.Misplaces t) ∧
    ∀ d (n : Expr) t, n.Misplaces t → (∀ e ∈ n.operands, e.HasValue d) →
      n.eval d = .error ⟨.unknownOperator, t⟩ := by
  refine ⟨fun p q e h => ?_, fun d e t h => exists_misplaces h, fun d n t h hvalues => ?_⟩
  · have hplaced := not_misplaces_of_parse h
    refine ⟨hplaced, fun d t hunknown => ?_⟩
    obtain ⟨n, hn, hmisplaces⟩ := exists_misplaces hunknown
    exact hplaced n hn t hmisplaces
  · exact (refuses_unknownOperator_iff.2 ⟨h, hvalues⟩).eval_eq

/-- A plus sign before a number and a bang between a string and nil are unknown, though each is an
operator in another place; a difference that is read is not. -/
theorem eval_unknownOperator_plus :
    let plus : Token := ⟨.symbol .plus, "+", 1⟩
    let bang : Token := ⟨.symbol .bang, "!", 2⟩
    let read : Parser := .ofTokens [⟨.keyword .nilWord, "nil", 1⟩, ⟨.symbol .minus, "-", 1⟩,
      ⟨.keyword .nilWord, "nil", 1⟩]
    let e := binary (literal .nil) ⟨.symbol .minus, "-", 1⟩ (literal .nil)
    (unary plus (literal (.number 1))).eval .strict = .error ⟨.unknownOperator, plus⟩ ∧
      (binary (literal (.string "a")) bang (literal .nil)).eval .standard =
        .error ⟨.unknownOperator, bang⟩ ∧
      (∃ n ∈ (grouping (unary plus (literal .nil))).postorder, n.Misplaces plus) ∧
      read.parse = (.ok e, ⟨read.tokens, 3⟩) ∧
      ∀ d t, e.eval d ≠ .error ⟨.unknownOperator, t⟩ := by
  intro plus bang read e
  obtain ⟨hread, hplace, hvalues⟩ := eval_unknownOperator
  have hparse : read.parse = (.ok e, ⟨read.tokens, 3⟩) := by cbv
  refine ⟨?_, ?_, hplace .strict _ plus rfl, hparse, (hread _ _ _ hparse).2⟩
  · exact hvalues _ _ _ (.unary (by decide)) (by simpa [operands] using ⟨_, rfl⟩)
  · exact hvalues _ _ _ (.binary (by decide)) (by simpa [operands] using ⟨⟨_, rfl⟩, ⟨_, rfl⟩⟩)

end Expr

end LoxCalc
