import LoxCalc.Proofs.Session.Outcome
import Mathlib.Logic.Relation

/-!
# Parentheses

Parentheses around a whole source become the root of its tree, and nothing in the source can take
part in them: a line feed in front of the closing one ends a comment, and no token goes over either
end. Parentheses in a tree are of no account in its evaluation. Main statement:
`run_parenthesized`, a source in parentheses shows the same value and has the same issues.
-/

namespace LoxCalc

/-! ### Parentheses in a tree -/

namespace Expr

/-- A tree, and the tree with one more pair of parentheses around some part of it. -/
inductive Wraps : Expr → Expr → Prop
  | here (e : Expr) : Wraps e (grouping e)
  | grouping {e e' : Expr} (inner : Wraps e e') : Wraps (grouping e) (grouping e')
  | unary (op : Token) {e e' : Expr} (operand : Wraps e e') : Wraps (unary op e) (unary op e')
  | left {e e' : Expr} (left : Wraps e e') (op : Token) (right : Expr) :
      Wraps (binary e op right) (binary e' op right)
  | right (left : Expr) (op : Token) {e e' : Expr} (right : Wraps e e') :
      Wraps (binary left op e) (binary left op e')

/-- Trees that come from each other by putting parentheses in and taking them out, anywhere. -/
def Regrouped : Expr → Expr → Prop := Relation.EqvGen Wraps

variable {e e' : Expr}

theorem Wraps.eval_eq (h : Wraps e e') (d : Dialect) : e.eval d = e'.eval d := by
  induction h with
  | here e => rfl
  | grouping inner ih => exact ih
  | unary op operand ih => rw [eval, ih, eval]
  | left left op right ih => rw [eval, ih, eval]
  | right left op right ih => rw [eval, ih, eval]

/-- However many parentheses are put in and taken out, the value or the fault stays. -/
theorem Regrouped.eval_eq (h : e.Regrouped e') (d : Dialect) : e.eval d = e'.eval d := by
  induction h with
  | rel e e' h => exact h.eval_eq d
  | refl e => rfl
  | symm e e' _ ih => exact ih.symm
  | trans e middle e' _ _ ih ih' => exact ih.trans ih'

end Expr

/-! ### Parentheses around a source -/

namespace Piece

/-- Pieces between parentheses, with a line feed in front of the closing one. -/
def parenthesized (ps : List Piece) : List Piece :=
  token (.symbol .leftParen) ['('] :: (ps ++ [blank '\n', token (.symbol .rightParen) [')']])

theorem Cut.parenthesized {source : List Char} {ps : List Piece} (h : Cut source ps)
    (hclosed : ∀ text, .openString text ∉ ps) :
    Cut ('(' :: (source ++ ['\n', ')'])) (parenthesized ps) := by
  have hclosing : Cut [')'] [token (.symbol .rightParen) [')']] :=
    .cons (stands_symbol rfl rfl (by decide) []) .nil
  exact .cons (stands_symbol rfl rfl (by decide) _) (h.append_lineFeed hclosed hclosing)

/-- The opening parenthesis takes no line, so that every piece stays on its own. -/
theorem placed_parenthesized (ps : List Piece) :
    let line := 1 + Text.lineFeeds (ps.flatMap text) + 1
    placed 1 (parenthesized ps) = (token (.symbol .leftParen) ['('], 1) ::
      (placed 1 ps ++ [(blank '\n', line), (token (.symbol .rightParen) [')'], line)]) := by
  rw [parenthesized, placed, placed_append]
  rfl

end Piece

open Piece (Cut placed token? fault?)

section Parenthesized

variable {source : String}

/-- The pieces of a source without faults, which are those of the source in parentheses too. -/
theorem Piece.exists_cut_parenthesized (hfaults : TokenStream.faultsOf source = []) :
    ∃ ps, Cut source.toList ps ∧ Cut ("(" ++ source ++ "\n" ++ ")").toList (parenthesized ps) := by
  obtain ⟨ps, hps⟩ := existsUnique_cut source.toList
  have hcut : Cut source.toList ps := (hps ps).2 rfl
  have hclosed : ∀ text, .openString text ∉ ps := by
    intro text hmem
    obtain ⟨line, hline⟩ := exists_unterminatedString hmem 1
    rw [← (TokenStream.scan_of_cut hcut).2, hfaults] at hline
    cases hline
  have htext : ("(" ++ source ++ "\n" ++ ")").toList = '(' :: (source.toList ++ ['\n', ')']) := by
    simp
  exact ⟨ps, hcut, htext ▸ hcut.parenthesized hclosed⟩

theorem TokenStream.faultsOf_parenthesized (hfaults : faultsOf source = []) :
    faultsOf ("(" ++ source ++ "\n" ++ ")") = [] := by
  obtain ⟨ps, hcut, hwhole⟩ := Piece.exists_cut_parenthesized hfaults
  rw [(scan_of_cut hwhole).2, Piece.placed_parenthesized, List.filterMap_cons_none rfl,
    List.filterMap_append, ← (scan_of_cut hcut).2, hfaults]
  rfl

/-- The tree of a source stays as it is, each operator on its line, and gets a new root. -/
theorem Expr.ofSource_parenthesized (hfaults : TokenStream.faultsOf source = []) {e : Expr}
    (hsource : ofSource source = .ok e) :
    ofSource ("(" ++ source ++ "\n" ++ ")") = .ok (grouping e) := by
  obtain ⟨ps, hcut, hwhole⟩ := Piece.exists_cut_parenthesized hfaults
  obtain ⟨⟨l, hlayered⟩, hspelled⟩ := (ofSource_eq_ok_iff hcut).1 hsource
  refine (ofSource_eq_ok_iff hwhole).2 ⟨⟨_, .grouping hlayered⟩, ?_⟩
  rw [Piece.placed_parenthesized, List.filterMap_cons_some (f := token?) rfl, List.filterMap_append]
  exact spelledBy_grouping.2 ⟨_, _, _, rfl, hspelled, rfl, rfl⟩

end Parenthesized

namespace Session

open TokenStream (faultsOf)

/-- Parentheses around a whole source change nothing but the root of its tree. A source without a
fault, between parentheses and with a line feed in front of the closing one, has no fault either,
and its tree is the same but for the parentheses around it. Every session shows the tree so, and for
the value it writes the same and adds the same issues, with any room in the output. In any tree,
parentheses can be put in and taken out anywhere without changing the value or the fault. -/
theorem run_parenthesized :
    (∀ (source : String) (e : Expr), faultsOf source = [] → Expr.ofSource source = .ok e →
      let whole := "(" ++ source ++ "\n" ++ ")"
      faultsOf whole = [] ∧ Expr.ofSource whole = .ok (.grouping e) ∧
        ∀ s : Session,
          s.run .tree source = (e.text ++ "\n", s) ∧
          s.run .tree whole = ("(group " ++ e.text ++ ")" ++ "\n", s) ∧
          s.run .value whole = s.run .value source ∧
          ∀ k, s.runInto .value whole k = s.runInto .value source k) ∧
    ∀ e e' : Expr, e.Regrouped e' → ∀ d, e.eval d = e'.eval d := by
  refine ⟨fun source e hfaults hsource => ?_, fun e e' h d => h.eval_eq d⟩
  intro whole
  have hwhole_faults : faultsOf whole = [] := TokenStream.faultsOf_parenthesized hfaults
  have hwhole : Expr.ofSource whole = .ok (.grouping e) :=
    Expr.ofSource_parenthesized hfaults hsource
  refine ⟨hwhole_faults, hwhole, fun s => ?_⟩
  have hvalue : outcome s.dialect .value whole = outcome s.dialect .value source := by
    rw [outcome_of_tree hwhole_faults hwhole, outcome_of_tree hfaults hsource]
    rfl
  have hshow : s.show? .value whole = s.show? .value source := by
    rw [show?_eq, show?_eq, hvalue]
  refine ⟨run_tree hfaults hsource s, run_tree hwhole_faults hwhole s, ?_, fun k => ?_⟩
  · rw [run, run, hshow]
  · rw [runInto, runInto, hshow]

/-- A parenthesis in a comment at the end closes nothing, and the fault stays on its line. -/
theorem run_parenthesized_comment :
    let source := "1 -\nnil // )"
    let whole := "(" ++ source ++ "\n" ++ ")"
    ∃ e, faultsOf source = [] ∧ Expr.ofSource source = .ok e ∧
      Expr.ofSource whole = .ok (.grouping e) ∧
      (start .strict).run .tree whole = ("(group " ++ e.text ++ ")" ++ "\n", start .strict) ∧
      ((start .strict).run .value whole).2.report =
        Report.empty.add ⟨.evaluation, 1, .atLexeme "-", "Operands must be numbers."⟩ ∧
      (Expr.grouping e).Regrouped e ∧ (Expr.grouping e).eval .strict = e.eval .strict := by
  intro source whole
  have hreading : readingIssues source = [] := by decide +kernel
  obtain ⟨hfaults, e, hsource⟩ := readingIssues_eq_nil_iff.1 hreading
  obtain ⟨-, hwhole, hruns⟩ := run_parenthesized.1 source e hfaults hsource
  obtain ⟨-, htree, hvalue, -⟩ := hruns (start .strict)
  have hreport : ((start .strict).run .value source).2.report =
      Report.empty.add ⟨.evaluation, 1, .atLexeme "-", "Operands must be numbers."⟩ := by
    decide +kernel
  have hregrouped : (Expr.grouping e).Regrouped e := .symm _ _ (.rel _ _ (.here e))
  exact ⟨e, hfaults, hsource, hwhole, htree, hvalue ▸ hreport, hregrouped,
    run_parenthesized.2 _ _ hregrouped .strict⟩

end Session

end LoxCalc
