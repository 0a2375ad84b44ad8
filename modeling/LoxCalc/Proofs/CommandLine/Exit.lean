import LoxCalc.CommandLine.Run
import LoxCalc.Proofs.Session.Verdict

/-!
# Exit codes

The command shows something or prints issues, and the issues of one run are all of one stage. The
stage can be told from what is printed: no issue of reading is spelled as one of evaluation is
(`stage_eq_of_text`). Main statement: `run_exit`, the exit code of a file tells exactly what was
printed for it, of its value and of its tree.
-/

namespace LoxCalc

/-! ### The stage of an issue that is printed -/

namespace Issue

/-- What stands behind the line of an issue: the closing bracket and the word for its stage. -/
theorem dropWhile_isDigit_text (i : Issue) (behind : List Char) :
    ((i.text.toList ++ behind).drop 6).dropWhile Char.isDigit =
      ']' :: ' ' :: (i.stage.label.toList ++
        (i.location.text.toList ++ (": ".toList ++ (i.message.toList ++ behind)))) := by
  have hdigits : ∀ c ∈ (toString i.line).toList, c.isDigit := by
    intro c hc
    rw [Nat.toString_eq_repr, Nat.toList_repr] at hc
    exact Nat.isDigit_of_mem_toDigits (by decide) (by decide) hc
  have htext : i.text.toList ++ behind = "[line ".toList ++ ((toString i.line).toList ++
      (']' :: ' ' :: (i.stage.label.toList ++
        (i.location.text.toList ++ (": ".toList ++ (i.message.toList ++ behind)))))) := by
    simp [text]
  rw [htext, List.drop_left' (i := 6) (by decide), List.dropWhile_append_of_pos hdigits]
  rfl

/-- Issues of different stages are spelled differently, whatever is printed behind them. -/
theorem stage_eq_of_text {i j : Issue} {behind behind' : List Char}
    (h : i.text.toList ++ behind = j.text.toList ++ behind') : i.stage = j.stage := by
  have hlabels := congrArg (fun text => (text.drop 6).dropWhile Char.isDigit) h
  simp only [dropWhile_isDigit_text, List.cons.injEq, true_and] at hlabels
  cases hi : i.stage with
  | reading =>
    cases hj : j.stage with
    | reading => rfl
    | evaluation => simp [hi, hj, Stage.label] at hlabels
  | evaluation =>
    cases hj : j.stage with
    | reading => simp [hi, hj, Stage.label] at hlabels
    | evaluation => rfl

end Issue

theorem Report.exitCode_of_reading {issues : List Issue} (hstage : ∀ i ∈ issues, i.stage = .reading)
    (hne : issues ≠ []) : (Report.empty.addAll issues).exitCode = 65 := by
  simp [exitCode, addAll, Session.any_stage hstage, hne]

namespace CommandLine

/-! ### What is printed -/

theorem append_lineFeed_ne_empty (text : String) : text ++ "\n" ≠ "" := by
  simp

theorem printed_cons (i : Issue) (issues : List Issue) :
    printed (i :: issues) = i.text ++ "\n" ++ printed issues := by
  simp [printed]

theorem printed_ne_empty {issues : List Issue} (h : issues ≠ []) : printed issues ≠ "" := by
  obtain ⟨i, issues, rfl⟩ := List.exists_cons_of_ne_nil h
  simp [printed_cons]

/-- What is printed for issues of reading is never that of one issue of evaluation. -/
theorem printed_ne_of_stage {issues : List Issue} {j : Issue}
    (h : ∀ i ∈ issues, i.stage = .reading) (hj : j.stage = .evaluation) :
    printed issues ≠ j.text ++ "\n" := by
  intro heq
  cases issues with
  | nil => exact append_lineFeed_ne_empty _ heq.symm
  | cons i issues =>
    rw [printed_cons, String.append_assoc] at heq
    have htext := congrArg String.toList heq
    simp only [String.toList_append] at htext
    cases (h i List.mem_cons_self).symm.trans ((Issue.stage_eq_of_text htext).trans hj)

/-! ### Runs of a file -/

/-- The outcome for a source that is read without an issue. -/
def treeOutcome (d : Dialect) (mode : Mode) (e : Expr) : Outcome :=
  match mode with
  | .tree => ⟨0, e.text ++ "\n", ""⟩
  | .value =>
    match e.eval d with
    | .ok value => ⟨0, value.text ++ "\n", ""⟩
    | .error fault => ⟨70, "", fault.issue.text ++ "\n"⟩

theorem runText_eq (d : Dialect) (mode : Mode) (source : String) :
    let o := Session.outcome d mode source
    runText d mode source = ⟨(Report.empty.addAll o.2).exitCode,
      (o.1.map (· ++ "\n")).getD "", printed o.2⟩ := by
  rw [runText, Session.run_eq]
  rfl

theorem runText_of_issues {source : String} (h : Session.readingIssues source ≠ []) (d : Dialect)
    (mode : Mode) : runText d mode source = ⟨65, "", printed (Session.readingIssues source)⟩ := by
  rw [runText_eq, Session.outcome_of_issues h,
    Report.exitCode_of_reading (Session.stage_readingIssues source) h]
  rfl

/-- A source without an issue of reading has a tree, which decides all that is left. -/
theorem exists_runText_eq {source : String} (h : Session.readingIssues source = []) :
    ∃ e, Expr.ofSource source = .ok e ∧
      ∀ d mode, runText d mode source = treeOutcome d mode e := by
  obtain ⟨e, hsource, houtcome⟩ := Session.exists_outcome_eq_shown h
  refine ⟨e, hsource, fun d mode => ?_⟩
  rw [runText_eq, houtcome]
  cases mode with
  | tree => rfl
  | value =>
    rw [Session.shown, treeOutcome]
    cases e.eval d with
    | ok value => rfl
    | error fault =>
      have hprinted : printed [fault.issue] = fault.issue.text ++ "\n" := by simp [printed]
      dsimp only
      rw [hprinted]
      rfl

theorem runFile_of_decode {content : Except ReadFault ByteArray} {source : String}
    (h : content.bind decode = .ok source) (d : Dialect) (mode : Mode) (path : String) :
    runFile d mode path content = runText d mode source := by
  rw [runFile, h]

/-- A command with the name of a file runs what is read from it. -/
theorem run_of_arguments {args : List String} {mode : Mode} {path : String}
    (h : Arguments.ofList args = .ok ⟨mode, some path⟩) (d : Dialect) (folder : Folder)
    (input : ByteArray) :
    run d args folder input = runFile d mode path (folder.read (.root input) path) := by
  rw [run, h]

/-! ### What an exit code tells -/

/-- Whether an exit code tells exactly what was printed, for a source with some issues of reading:
the text of a value on a line, all those issues, or one issue of evaluation. -/
structure Outcome.Truthful (o : Outcome) (issues : List Issue) : Prop where
  value : o.exit = 0 ↔ (∃ v : Value, o.stdout = v.text ++ "\n") ∧ o.stderr = ""
  reading : o.exit = 65 ↔ o.stdout = "" ∧ o.stderr ≠ "" ∧ o.stderr = printed issues
  evaluation : o.exit = 70 ↔
    o.stdout = "" ∧ ∃ i : Issue, i.stage = .evaluation ∧ o.stderr = i.text ++ "\n"
  exit_cases : o.exit = 0 ∨ o.exit = 65 ∨ o.exit = 70

theorem truthful_value (v : Value) (issues : List Issue) :
    Outcome.Truthful ⟨0, v.text ++ "\n", ""⟩ issues where
  value := iff_of_true rfl ⟨⟨v, rfl⟩, rfl⟩
  reading := iff_of_false (by simp) fun h => append_lineFeed_ne_empty _ h.1
  evaluation := iff_of_false (by simp) fun h => append_lineFeed_ne_empty _ h.1
  exit_cases := .inl rfl

theorem truthful_reading {issues : List Issue} (hstage : ∀ i ∈ issues, i.stage = .reading)
    (hne : issues ≠ []) : Outcome.Truthful ⟨65, "", printed issues⟩ issues where
  value := iff_of_false (by simp) fun h => printed_ne_empty hne h.2
  reading := iff_of_true rfl ⟨rfl, printed_ne_empty hne, rfl⟩
  evaluation := by
    refine iff_of_false (by simp) ?_
    rintro ⟨-, i, hi, hprinted⟩
    exact printed_ne_of_stage hstage hi hprinted
  exit_cases := .inr (.inl rfl)

theorem truthful_evaluation (fault : Eval.Fault) :
    Outcome.Truthful ⟨70, "", fault.issue.text ++ "\n"⟩ [] where
  value := iff_of_false (by simp) fun h => append_lineFeed_ne_empty _ h.2
  reading := iff_of_false (by simp) fun h => h.2.1 h.2.2
  evaluation := iff_of_true rfl ⟨rfl, fault.issue, rfl, rfl⟩
  exit_cases := .inr (.inr rfl)

theorem truthful_treeOutcome (d : Dialect) (e : Expr) : (treeOutcome d .value e).Truthful [] := by
  rw [treeOutcome]
  cases e.eval d with
  | ok value => exact truthful_value value []
  | error fault => exact truthful_evaluation fault

theorem exit_treeOutcome_ne (d : Dialect) (mode : Mode) (e : Expr) :
    (treeOutcome d mode e).exit ≠ 65 := by
  cases mode with
  | tree => simp [treeOutcome]
  | value =>
    rw [treeOutcome]
    cases e.eval d with
    | ok value => simp
    | error fault => simp

/-- What the outcomes for a source tell, the one that shows its value and the one that shows its
tree. The first has the exit code that the report had before its issues were taken out. -/
structure TruthfulPair (d : Dialect) (source : String) (o tree : Outcome) : Prop where
  truthful : o.Truthful (Session.readingIssues source)
  exit_eq : o.exit = ((Session.start d).run .value source).2.report.exitCode
  stderr_eq : o.stderr = printed ((Session.start d).run .value source).2.report.issues
  tree_exit_iff : tree.exit = 65 ↔ o.exit = 65
  tree_eq : o.exit = 65 → tree = o
  tree_shown : o.exit ≠ 65 → ∃ e, Expr.ofSource source = .ok e ∧ o = treeOutcome d .value e ∧
    tree = ⟨0, e.text ++ "\n", ""⟩

theorem truthfulPair_runText (d : Dialect) (source : String) :
    TruthfulPair d source (runText d .value source) (runText d .tree source) := by
  by_cases hissues : Session.readingIssues source = []
  · obtain ⟨e, hsource, hrun⟩ := exists_runText_eq hissues
    have hexit := exit_treeOutcome_ne d .value e
    have htruthful := truthful_treeOutcome d e
    rw [← hissues] at htruthful
    rw [← hrun] at hexit htruthful
    have hexit' : (runText d .tree source).exit ≠ 65 := hrun d .tree ▸ exit_treeOutcome_ne d .tree e
    exact ⟨htruthful, rfl, rfl, iff_of_false hexit' hexit, fun h => absurd h hexit,
      fun _ => ⟨e, hsource, hrun d .value, hrun d .tree⟩⟩
  · have hsame : runText d .tree source = runText d .value source := by
      rw [runText_of_issues hissues, runText_of_issues hissues]
    have hexit : (runText d .value source).exit = 65 := by rw [runText_of_issues hissues]
    refine ⟨?_, rfl, rfl, by rw [hsame], fun _ => hsame, fun h => absurd hexit h⟩
    rw [runText_of_issues hissues]
    exact truthful_reading (Session.stage_readingIssues source) hissues

/-- The exit code of a file tells exactly what was printed, whatever the file is called and however
its content was read, if that is a text. -/
theorem truthfulPair_runFile {content : Except ReadFault ByteArray} {source : String}
    (hread : content.bind decode = .ok source) (d : Dialect) (path : String) :
    TruthfulPair d source (runFile d .value path content) (runFile d .tree path content) := by
  rw [runFile_of_decode hread, runFile_of_decode hread]
  exact truthfulPair_runText d source

/-- The exit code tells exactly what was printed. For a file that holds a text it is 0 exactly if
the output is the text of a value on a line and no issue is printed, 65 exactly if there is no
output and all issues of reading are printed, of which there is one, and 70 exactly if there is no
output and one issue of evaluation is printed; there is no other exit code. It is the exit code of
the report as it was before its issues were taken out. With the option that asks for the tree it is
65 exactly if it is without, with the same printed, and else it is 0 and the tree is shown. -/
theorem run_exit {args treeArgs : List String} {path : String} {folder : Folder} {input : ByteArray}
    {source : String} (hargs : Arguments.ofList args = .ok ⟨.value, some path⟩)
    (htree : Arguments.ofList treeArgs = .ok ⟨.tree, some path⟩)
    (hread : (folder.read (.root input) path).bind decode = .ok source) (d : Dialect) :
    let o := run d args folder input
    let t := run d treeArgs folder input
    let report := ((Session.start d).run .value source).2.report
    o.Truthful (Session.readingIssues source) ∧
    o.exit = report.exitCode ∧ o.stderr = printed report.issues ∧
    (t.exit = 65 ↔ o.exit = 65) ∧ (o.exit = 65 → t = o) ∧
    (o.exit ≠ 65 → ∃ e, Expr.ofSource source = .ok e ∧ o = treeOutcome d .value e ∧
      t = ⟨0, e.text ++ "\n", ""⟩) := by
  rw [run_of_arguments hargs, run_of_arguments htree]
  obtain ⟨htruthful, hexit, hstderr, hiff, hsame, hshown⟩ := truthfulPair_runFile hread d path
  exact ⟨htruthful, hexit, hstderr, hiff, hsame, hshown⟩

/-- A string cannot be negated, but it is read, so that its tree is shown. -/
theorem run_exit_negation :
    let folder := Folder.ofFiles [("a.lox", "-\"b\"".toUTF8)]
    let o := run .standard ["a.lox"] folder .empty
    Arguments.ofList ["a.lox"] = .ok ⟨.value, some "a.lox"⟩ ∧
      Arguments.ofList ["--ast", "a.lox"] = .ok ⟨.tree, some "a.lox"⟩ ∧
      (folder.read (.root .empty) "a.lox").bind decode = .ok "-\"b\"" ∧
      o.exit = 70 ∧ o.stdout = "" ∧
      (∃ i : Issue, i.stage = .evaluation ∧ o.stderr = i.text ++ "\n") ∧
      ∃ e, Expr.ofSource "-\"b\"" = .ok e ∧
        run .standard ["--ast", "a.lox"] folder .empty = ⟨0, e.text ++ "\n", ""⟩ := by
  intro folder o
  have hargs : Arguments.ofList ["a.lox"] = .ok ⟨.value, some "a.lox"⟩ := rfl
  have htree : Arguments.ofList ["--ast", "a.lox"] = .ok ⟨.tree, some "a.lox"⟩ := rfl
  have hread : (folder.read (.root .empty) "a.lox").bind decode = .ok "-\"b\"" := by
    decide +kernel
  have hexit : o.exit = 70 := by decide +kernel
  obtain ⟨htruthful, -, -, -, -, hshown⟩ := run_exit hargs htree hread .standard
  obtain ⟨hstdout, hstderr⟩ := htruthful.evaluation.1 hexit
  obtain ⟨e, hsource, -, ht⟩ := hshown (by rw [hexit]; decide)
  exact ⟨hargs, htree, hread, hexit, hstdout, hstderr, e, hsource, ht⟩

end CommandLine

end LoxCalc
