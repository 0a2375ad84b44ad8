import LoxCalc.Proofs.Eval.Typing
import LoxCalc.Proofs.Token.Respelling
import LoxCalc.Session

/-!
# Outcomes of a source

What a source shows and the issues that it has are the same in every session. `Session.outcome` says
them by the faults of its tokens, the tree and the value of the tree. Main statement: `show?_eq`,
a session shows the text of the outcome and adds the issues of the outcome to those it holds.
-/

namespace LoxCalc

/-- The tokens of a source have their end of input. -/
theorem Parser.closed_scan (source : String) (r : Report) :
    closed (TokenStream.scan source r).1 = (TokenStream.scan source r).1 := by
  obtain ⟨ps, hps⟩ := Piece.existsUnique_cut source.toList
  rw [(TokenStream.scan_of_cut ((hps ps).2 rfl)).1, closed, List.getLast?_concat]
  rfl

section Cut

open Piece (Cut placed token?)

variable {source : String} {ps : List Piece}

theorem TokenStream.beforeEnd_scan (hcut : Cut source.toList ps) (r : Report) :
    Token.beforeEnd (scan source r).1 = (placed 1 ps).filterMap token? := by
  have hend : ∀ t ∈ (placed 1 ps).filterMap token?, ¬t.isEnd := fun t ht =>
    (Token.isSpelled_of_mem_cut hcut ht).not_isEnd
  rw [(scan_of_cut hcut).1 r, Token.beforeEnd_append hend, Token.beforeEnd_cons_of_isEnd rfl,
    List.append_nil]

/-- The tree of a source is the one that its tokens write out. -/
theorem Expr.ofSource_eq_ok_iff (hcut : Cut source.toList ps) {e : Expr} :
    ofSource source = .ok e ↔
      e.WellLayered ∧ e.SpelledBy ((placed 1 ps).filterMap token?) := by
  rw [← TokenStream.beforeEnd_scan hcut .empty]
  constructor
  · intro h
    exact (Parser.parse_ofTokens_eq_ok_iff.1 (Prod.ext h rfl)).1
  · intro h
    exact congrArg Prod.fst (Parser.parse_ofTokens_eq_ok_iff.2 ⟨h, rfl⟩)

end Cut

namespace Session

/-- The issues found in reading a source: those of its tokens and then that of its tree. -/
def readingIssues (source : String) : List Issue :=
  (TokenStream.faultsOf source).map LexicalFault.issue ++
    match Expr.ofSource source with
    | .error fault => [fault.issue]
    | .ok _ => []

theorem stage_readingIssues (source : String) :
    ∀ i ∈ readingIssues source, i.stage = .reading := by
  intro i hi
  rcases List.mem_append.1 hi with hi | hi
  · obtain ⟨f, -, rfl⟩ := List.mem_map.1 hi
    rfl
  · cases hsource : Expr.ofSource source with
    | error fault =>
      rw [hsource] at hi
      obtain rfl := List.mem_singleton.1 hi
      rfl
    | ok e =>
      rw [hsource] at hi
      cases hi

theorem readingIssues_eq_nil_iff {source : String} : readingIssues source = [] ↔
    TokenStream.faultsOf source = [] ∧ ∃ e, Expr.ofSource source = .ok e := by
  rw [readingIssues]
  cases Expr.ofSource source with
  | error fault => simp
  | ok e => simp

/-- Reading adds its issues to those held, and finds the tree if there is no issue. -/
theorem read?_eq (s : Session) (source : String) : s.read? source =
    (if TokenStream.faultsOf source = [] then (Expr.ofSource source).toOption else none,
      { s with report := s.report.addAll (readingIssues source) }) := by
  have htree : Expr.ofSource source =
      (Parser.ofTokens (TokenStream.ofString source).drain.1).parse.1 := rfl
  rw [read?, readingIssues, htree, TokenStream.faultsOf]
  generalize (TokenStream.ofString source).drain = drained
  obtain ⟨tokens, stream⟩ := drained
  dsimp only
  cases hparse : (Parser.ofTokens tokens).parse with
  | mk result q =>
    cases result with
    | error fault =>
      simp [Parser.parseReporting, hparse, TokenStream.report, Report.add, Report.addAll_append,
        Except.toOption]
    | ok e =>
      simp [Parser.parseReporting, hparse, TokenStream.report, Except.toOption]

/-- What a tree shows, and the issues of its evaluation. -/
def shown (d : Dialect) (mode : Mode) (e : Expr) : Option String × List Issue :=
  match mode with
  | .tree => (some e.text, [])
  | .value =>
    match e.eval d with
    | .error fault => (none, [fault.issue])
    | .ok value => (some value.text, [])

/-- What a source shows, and its issues. A source with an issue of reading shows nothing. -/
def outcome (d : Dialect) (mode : Mode) (source : String) : Option String × List Issue :=
  match readingIssues source, Expr.ofSource source with
  | [], .ok e => shown d mode e
  | issues, _ => (none, issues)

theorem outcome_of_issues {source : String} (h : readingIssues source ≠ []) (d : Dialect)
    (mode : Mode) : outcome d mode source = (none, readingIssues source) := by
  obtain ⟨i, issues, hissues⟩ := List.exists_cons_of_ne_nil h
  rw [outcome, hissues]

theorem outcome_of_tree {source : String} (hfaults : TokenStream.faultsOf source = []) {e : Expr}
    (hsource : Expr.ofSource source = .ok e) (d : Dialect) (mode : Mode) :
    outcome d mode source = shown d mode e := by
  rw [outcome, readingIssues, hfaults, hsource]
  rfl

/-- A source without an issue of reading has a tree, which decides what is shown. -/
theorem exists_outcome_eq_shown {source : String} (h : readingIssues source = []) :
    ∃ e, Expr.ofSource source = .ok e ∧ ∀ d mode, outcome d mode source = shown d mode e := by
  obtain ⟨hfaults, e, hsource⟩ := readingIssues_eq_nil_iff.1 h
  exact ⟨e, hsource, outcome_of_tree hfaults hsource⟩

/-- A source comes to the same in every session, which adds its issues to those held. -/
theorem show?_eq (s : Session) (mode : Mode) (source : String) : s.show? mode source =
    ((outcome s.dialect mode source).1,
      { s with report := s.report.addAll (outcome s.dialect mode source).2 }) := by
  rw [show?, read?_eq, outcome, readingIssues]
  cases hsource : Expr.ofSource source with
  | error fault =>
    cases hfaults : TokenStream.faultsOf source with
    | nil => simp [Except.toOption]
    | cons f faults => simp
  | ok e =>
    cases hfaults : TokenStream.faultsOf source with
    | cons f faults => simp
    | nil =>
      cases mode with
      | tree => simp [Except.toOption, shown]
      | value =>
        cases heval : e.eval s.dialect with
        | error fault => simp [Except.toOption, shown, Expr.evalReporting, heval, Report.add]
        | ok value => simp [Except.toOption, shown, Expr.evalReporting, heval]

/-- A run writes what the source shows on a line of its own. -/
theorem run_eq (s : Session) (mode : Mode) (source : String) : s.run mode source =
    (((outcome s.dialect mode source).1.map (· ++ "\n")).getD "",
      { s with report := s.report.addAll (outcome s.dialect mode source).2 }) := by
  rw [run, show?_eq]
  cases (outcome s.dialect mode source).1 <;> rfl

/-- A source with an issue of reading comes to the same for the tree and for the value. -/
theorem run_of_issues {source : String} (h : readingIssues source ≠ []) (s : Session)
    (mode : Mode) : s.run mode source =
      ("", { s with report := s.report.addAll (readingIssues source) }) := by
  rw [run_eq, outcome_of_issues h]
  rfl

/-- The tree of a source without an issue of reading is shown without an issue. -/
theorem run_tree {source : String} (hfaults : TokenStream.faultsOf source = []) {e : Expr}
    (hsource : Expr.ofSource source = .ok e) (s : Session) :
    s.run .tree source = (e.text ++ "\n", s) := by
  rw [run_eq, outcome_of_tree hfaults hsource, shown, Report.addAll_nil]
  rfl

theorem run_snd (s : Session) (mode : Mode) (source : String) :
    (s.run mode source).2 = (s.show? mode source).2 := by
  unfold run
  split
  next h => rw [h]
  next h => rw [h]

theorem runInto_snd (s : Session) (mode : Mode) (source : String) (k : Sink) :
    (s.runInto mode source k).2.2 = (s.show? mode source).2 := by
  unfold runInto
  split
  next h => rw [h]
  next h => rw [h]

end Session

end LoxCalc
