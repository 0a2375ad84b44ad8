import LoxCalc.Proofs.Expr.Places
import LoxCalc.Proofs.Session.Outcome
import LoxCalc.Proofs.Token.Layout

/-!
# Sources below other lines

No stage looks at the line of a token; it only goes into issues. Main statement: `run_layout`, with
blanks and comments in front of it a source shows the same, and its issues are the same but for
their lines, which grow by the lines in front.
-/

namespace LoxCalc

/-- An issue some lines further down. -/
def Issue.below (n : Nat) (i : Issue) : Issue := { i with line := i.line + n }

theorem Token.data_below (n : Nat) (t : Token) : (t.below n).data = t.data := rfl

theorem Token.lexeme_below (n : Nat) (t : Token) : (t.below n).lexeme = t.lexeme := rfl

theorem LexicalFault.issue_below (n : Nat) (f : LexicalFault) :
    (f.below n).issue = f.issue.below n := by
  cases f <;> rfl

theorem SyntaxFault.issue_map_below (n : Nat) (f : SyntaxFault) :
    (f.map (Token.below n)).issue = f.issue.below n := rfl

theorem Eval.Fault.issue_map_below (n : Nat) (f : Eval.Fault) :
    (f.map (Token.below n)).issue = f.issue.below n := rfl

section Layout

variable {layout : String}

/-- Layout in front of a source moves its tree, or the fault that it is refused for. -/
theorem Expr.ofSource_layout (h : Text.IsLayout layout.toList) (source : String) :
    ofSource (layout ++ source) =
      SyntaxFault.mapResult (Token.below (Text.lineFeeds layout.toList)) (ofSource source) := by
  have htokens := (TokenStream.scan_layout h source .empty).1
  have hclosed := Parser.closed_scan (layout ++ source) .empty
  rw [htokens] at hclosed
  have hparser : Parser.ofTokens (TokenStream.scan (layout ++ source) .empty).1 =
      (Parser.ofTokens (TokenStream.scan source .empty).1).map
        (Token.below (Text.lineFeeds layout.toList)) := by
    rw [htokens, Parser.ofTokens, hclosed, Parser.ofTokens, Parser.closed_scan]
    rfl
  rw [ofSource, hparser, (Parser.guarded_ofTokens _).parse_map (Token.data_below _)]
  rfl

end Layout

namespace Session

section Layout

variable {layout : String}

theorem readingIssues_layout (h : Text.IsLayout layout.toList) (source : String) :
    readingIssues (layout ++ source) =
      (readingIssues source).map (Issue.below (Text.lineFeeds layout.toList)) := by
  have hlexical : ∀ n, LexicalFault.issue ∘ LexicalFault.below n =
      Issue.below n ∘ LexicalFault.issue := fun n => funext (LexicalFault.issue_below n)
  rw [readingIssues, readingIssues, Expr.ofSource_layout h,
    (TokenStream.scan_layout h source .empty).2, List.map_append, List.map_map, List.map_map,
    hlexical]
  cases Expr.ofSource source with
  | error fault => rfl
  | ok e => rfl

/-- A tree whose operators are further down shows the same. -/
theorem shown_mapOperators (d : Dialect) (mode : Mode) (n : Nat) (e : Expr) :
    shown d mode (e.mapOperators (Token.below n)) =
      ((shown d mode e).1, (shown d mode e).2.map (Issue.below n)) := by
  cases mode with
  | tree => rw [shown, Expr.text_mapOperators (Token.lexeme_below n)]; rfl
  | value =>
    rw [shown, shown, Expr.eval_mapOperators (Token.data_below n)]
    cases e.eval d with
    | error fault => rfl
    | ok value => rfl

/-- Layout in front of a source moves its issues, and nothing else. -/
theorem outcome_layout (h : Text.IsLayout layout.toList) (d : Dialect) (mode : Mode)
    (source : String) : outcome d mode (layout ++ source) = ((outcome d mode source).1,
      (outcome d mode source).2.map (Issue.below (Text.lineFeeds layout.toList))) := by
  rw [outcome, outcome, readingIssues_layout h, Expr.ofSource_layout h]
  cases hissues : readingIssues source with
  | cons i issues => rfl
  | nil =>
    cases Expr.ofSource source with
    | error fault => rfl
    | ok e => exact shown_mapOperators d mode _ e

/-- Layout in front of a source changes nothing but the lines of its issues. In every session and
for what is shown of the value or the tree, the same is written, with any room in the output; and
the same issues are added in the same order, each as many lines further down as the layout takes. -/
theorem run_layout (h : Text.IsLayout layout.toList) (source : String) (s : Session) (mode : Mode) :
    ∃ added, (s.run mode source).2 = { s with report := s.report.addAll added } ∧
      s.run mode (layout ++ source) = ((s.run mode source).1, { s with
        report := s.report.addAll (added.map (Issue.below (Text.lineFeeds layout.toList))) }) ∧
      ∀ k, s.runInto mode (layout ++ source) k = ((s.runInto mode source k).1,
        (s.runInto mode source k).2.1, (s.run mode (layout ++ source)).2) := by
  refine ⟨(outcome s.dialect mode source).2, ?_, ?_, fun k => ?_⟩
  · rw [run, show?_eq]
    cases (outcome s.dialect mode source).1 <;> rfl
  · rw [run, run, show?_eq, show?_eq, outcome_layout h]
    cases (outcome s.dialect mode source).1 <;> rfl
  · rw [runInto, runInto, run, show?_eq, show?_eq, outcome_layout h]
    cases (outcome s.dialect mode source).1 <;> rfl

/-- A comment and a blank line in front of a string of two lines move the fault behind it. -/
theorem run_layout_string :
    Text.IsLayout "// \"\n\t\n".toList ∧
      ∃ added, ((start .standard).run .value "\"a\nb\" - 1").2 =
          { start .standard with report := Report.empty.addAll added } ∧
        (start .standard).run .value ("// \"\n\t\n" ++ "\"a\nb\" - 1") =
          (((start .standard).run .value "\"a\nb\" - 1").1, { start .standard with
            report := Report.empty.addAll (added.map (Issue.below 2)) }) := by
  have h : Text.IsLayout "// \"\n\t\n".toList :=
    @Text.IsLayout.comment [' ', '"'] _ (by decide) (.blank rfl (.blank rfl .nil))
  obtain ⟨added, halone, hbelow, -⟩ := run_layout h "\"a\nb\" - 1" (start .standard) .value
  exact ⟨h, added, halone, hbelow⟩

end Layout

end Session

end LoxCalc
