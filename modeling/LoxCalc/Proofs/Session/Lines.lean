import LoxCalc.Proofs.Eval.Postorder
import LoxCalc.Proofs.Expr.Counter
import LoxCalc.Proofs.Session.Verdict
import LoxCalc.Proofs.Token.Lines

/-!
# Lines of issues

Every issue that is not of a fault in cutting a source into tokens is of one of the tokens: a parser
stops at a token that it has not read, and evaluation ends at an operator of the tree, which is kept
as it was read. Main statement: `run_lineNumbers`, the lines of all tokens and issues of a source.
-/

namespace LoxCalc

/-- An operator of a tree is one of the tokens that write the tree out. -/
theorem Expr.SpelledBy.operator_mem {e node : Expr} {op : Token} {tokens : List Token}
    (h : e.SpelledBy tokens) (hnode : node ∈ e.postorder) (hop : node.operator? = some op) :
    op ∈ tokens := by
  induction e generalizing tokens with
  | literal value =>
    obtain rfl := List.mem_singleton.1 hnode
    cases hop
  | grouping inner ih =>
    obtain ⟨opening, read, closing, -, hinner, -, rfl⟩ := spelledBy_grouping.1 h
    rcases List.mem_append.1 hnode with hnode | hnode
    · have := ih hinner hnode
      simp [this]
    · obtain rfl := List.mem_singleton.1 hnode
      cases hop
  | unary op' operand ih =>
    obtain ⟨after, hoperand, rfl⟩ := spelledBy_unary.1 h
    rcases List.mem_append.1 hnode with hnode | hnode
    · exact List.mem_cons_of_mem _ (ih hoperand hnode)
    · obtain rfl := List.mem_singleton.1 hnode
      obtain rfl := Option.some.inj hop
      exact List.mem_cons_self
  | binary left op' right ihl ihr =>
    obtain ⟨before, after, hleft, hright, rfl⟩ := spelledBy_binary.1 h
    rcases List.mem_append.1 hnode with hnode | hnode
    · rcases List.mem_append.1 hnode with hnode | hnode
      · exact List.mem_append_left _ (ihl hleft hnode)
      · exact List.mem_append_right _ (List.mem_cons_of_mem _ (ihr hright hnode))
    · obtain rfl := List.mem_singleton.1 hnode
      obtain rfl := Option.some.inj hop
      exact List.mem_append_right _ List.mem_cons_self

/-- The token at which a parser stops is one that it has not read. -/
theorem Parser.Guarded.token_mem {p : Parser} (h : p.Guarded) {fault : SyntaxFault}
    (hfault : p.parse.1 = .error fault) : fault.token ∈ p.upcoming := by
  rcases p.parse_cases_run with ⟨e, rest, -, heq⟩ | ⟨stop, hpass, -, heq⟩
  · rw [heq] at hfault
    cases hfault
  · obtain ⟨t, after, hstop⟩ := List.exists_cons_of_ne_nil (h.ne_nil_of_passes hpass)
    rw [heq, p.fail_eq hpass.suffix, hstop] at hfault
    obtain rfl := Except.error.inj hfault
    apply hpass.suffix.subset
    rw [hstop]
    exact List.mem_cons_self

namespace Session

open Piece (Cut token? textBefore)
open TokenStream (scan faultsOf)

variable {source : String}

theorem token_mem_scan {fault : SyntaxFault} (h : Expr.ofSource source = .error fault)
    (r : Report) : fault.token ∈ (scan source r).1 := by
  have hmem := (Parser.guarded_ofTokens (scan source .empty).1).token_mem h
  rwa [Parser.upcoming_ofTokens, Parser.closed_scan] at hmem

theorem operator_mem_scan {e node : Expr} {op : Token} (h : Expr.ofSource source = .ok e)
    (hnode : node ∈ e.postorder) (hop : node.operator? = some op) (r : Report) :
    op ∈ (scan source r).1 := by
  have hparse : (Parser.ofTokens (scan source .empty).1).parse = (.ok e, _) := Prod.ext h rfl
  have hspelled := (Parser.parse_ofTokens_eq_ok_iff.1 hparse).1.2
  exact (List.takeWhile_sublist _).subset (hspelled.operator_mem hnode hop)

/-- The issues of a source: those of its tokens, at most one of its tree, and at most one of its
evaluation. -/
theorem exists_outcome_issues (d : Dialect) (mode : Mode) (source : String) :
    ∃ (parsing : Option SyntaxFault) (evaluation : Option Eval.Fault),
      (outcome d mode source).2 = (faultsOf source).map LexicalFault.issue ++
        parsing.toList.map SyntaxFault.issue ++ evaluation.toList.map Eval.Fault.issue ∧
      (∀ f ∈ parsing, Expr.ofSource source = .error f) ∧
      ∀ f ∈ evaluation, ∃ e, Expr.ofSource source = .ok e ∧ e.eval d = .error f := by
  rw [outcome, readingIssues]
  cases hsource : Expr.ofSource source with
  | error fault => exact ⟨some fault, none, by simp, by simp, by simp⟩
  | ok e =>
    cases hfaults : faultsOf source with
    | cons f faults => exact ⟨none, none, by simp, by simp, by simp⟩
    | nil =>
      cases mode with
      | tree => exact ⟨none, none, rfl, by simp, by simp⟩
      | value =>
        cases heval : e.eval d with
        | error fault => exact ⟨none, some fault, by simp [shown, heval], by simp, by simp [heval]⟩
        | ok value => exact ⟨none, none, by simp [shown, heval], by simp, by simp⟩

/-- Line numbers are exact. A source is cut in exactly one way. Each of its tokens is on the line
that the source reaches up to the end of the token, the end of input on the last line, a stray
character on the line that the source reaches in front of it, and a string that is left open on the
last line. So the lines of the tokens never go down, nor do those of the faults. The issues that a
run adds to those held, with any room in the output, are those of the faults, at most one of the
tree, on the line of a token, and at most one of the evaluation, on the line of a token that is an
operator of the tree; and each of them is on a line of the source. -/
theorem run_lineNumbers (source : String) (r : Report) :
    let last := 1 + Text.lineFeeds source.toList
    let tokens := (scan source r).1
    let faults := faultsOf source
    (∃ ps, (∀ qs, Cut source.toList qs ↔ qs = ps) ∧ ps.flatMap Piece.text = source.toList ∧
      tokens = (ps.mapIdx fun i p =>
        token? (p, 1 + Text.lineFeeds (textBefore ps (i + 1)))).reduceOption ++ [.endOn last] ∧
      faults = (ps.mapIdx fun i p =>
        p.faultOn? (1 + Text.lineFeeds (textBefore ps i)) last).reduceOption) ∧
    tokens.Pairwise (fun t u => t.line ≤ u.line) ∧
    faults.Pairwise (fun f g => f.line ≤ g.line) ∧
    ∀ (s : Session) (mode : Mode),
      ∃ (parsing : Option SyntaxFault) (evaluation : Option Eval.Fault) (added : List Issue),
        (s.run mode source).2 = { s with report := s.report.addAll added } ∧
        (∀ k, (s.runInto mode source k).2.2 = (s.run mode source).2) ∧
        added = faults.map LexicalFault.issue ++ parsing.toList.map SyntaxFault.issue ++
          evaluation.toList.map Eval.Fault.issue ∧
        (∀ f ∈ parsing, Expr.ofSource source = .error f ∧ f.token ∈ tokens ∧
          f.issue.line = f.token.line) ∧
        (∀ f ∈ evaluation, ∃ e node, Expr.ofSource source = .ok e ∧ node ∈ e.postorder ∧
          node.operator? = some f.operator ∧ f.operator ∈ tokens ∧
          f.issue.line = f.operator.line) ∧
        ∀ i ∈ added, 1 ≤ i.line ∧ i.line ≤ last := by
  intro last tokens faults
  obtain ⟨htokens_sorted, htokens, hfaults_sorted, hfaults⟩ :=
    TokenStream.pairwise_line_scan source r
  refine ⟨?_, htokens_sorted, hfaults_sorted, fun s mode => ?_⟩
  · obtain ⟨ps, hps⟩ := Piece.existsUnique_cut source.toList
    have hcut : Cut source.toList ps := (hps ps).2 rfl
    exact ⟨ps, hps, Piece.flatMap_text_of_cut hcut, TokenStream.scan_eq_mapIdx hcut r⟩
  obtain ⟨parsing, evaluation, hissues, hparsing, hevaluation⟩ :=
    exists_outcome_issues s.dialect mode source
  have hparsing_mem : ∀ f ∈ parsing, f.token ∈ tokens := fun f hf =>
    token_mem_scan (hparsing f hf) r
  have hevaluation_mem : ∀ f ∈ evaluation, ∃ e node, Expr.ofSource source = .ok e ∧
      node ∈ e.postorder ∧ node.operator? = some f.operator ∧ f.operator ∈ tokens := by
    intro f hf
    obtain ⟨e, hsource, heval⟩ := hevaluation f hf
    obtain ⟨before, node, hfails⟩ := Expr.exists_failsAt heval
    obtain ⟨after, hplace⟩ := hfails.reaches.place
    have hnode : node ∈ e.postorder := by simp [hplace]
    have hop := hfails.refuses.operator?_eq
    exact ⟨e, node, hsource, hnode, hop, operator_mem_scan hsource hnode hop r⟩
  refine ⟨parsing, evaluation, _, ?_, fun k => ?_, hissues, fun f hf => ?_, fun f hf => ?_,
    fun i hi => ?_⟩
  · rw [run_snd, show?_eq]
  · rw [runInto_snd, run_snd]
  · exact ⟨hparsing f hf, hparsing_mem f hf, rfl⟩
  · obtain ⟨e, node, hsource, hnode, hop, hmem⟩ := hevaluation_mem f hf
    exact ⟨e, node, hsource, hnode, hop, hmem, rfl⟩
  · rw [hissues, List.mem_append, List.mem_append] at hi
    rcases hi with (hi | hi) | hi
    · obtain ⟨f, hf, rfl⟩ := List.mem_map.1 hi
      exact hfaults f hf
    · obtain ⟨f, hf, rfl⟩ := List.mem_map.1 hi
      exact htokens _ (hparsing_mem f (Option.mem_toList.1 hf))
    · obtain ⟨f, hf, rfl⟩ := List.mem_map.1 hi
      obtain ⟨e, node, -, -, -, hmem⟩ := hevaluation_mem f (Option.mem_toList.1 hf)
      exact htokens _ hmem

end Session

end LoxCalc
