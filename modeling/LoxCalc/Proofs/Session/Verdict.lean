import LoxCalc.Proofs.Session.Outcome

/-!
# Verdicts

What a source comes to does not depend on what a session has run before. `Session.verdict` says it
of the source alone. Main statement: `run_verdict`, a session that has gone through any calls shows
the text of the verdict and adds the issues of the verdict to those it holds.
-/

namespace LoxCalc

/-! ### The stages of issues -/

@[simp] theorem LexicalFault.stage_issue (f : LexicalFault) : f.issue.stage = .reading := rfl

@[simp] theorem SyntaxFault.stage_issue (f : SyntaxFault) : f.issue.stage = .reading := rfl

@[simp] theorem Eval.Fault.stage_issue (f : Eval.Fault) : f.issue.stage = .evaluation := rfl

/-- What a source comes to: the faults found in cutting it into tokens, the fault found in reading
its tree, and the fault or the value of its evaluation. -/
structure Verdict where
  lexical : List Issue
  parsing : Option Issue
  evaluation : Option Issue
  value : Option Value

namespace Verdict

/-- The issues of a verdict, in the order in which they are found. -/
def issues (v : Verdict) : List Issue := v.lexical ++ v.parsing.toList ++ v.evaluation.toList

/-- What is shown of a verdict: the value on a line of its own, if there is one. -/
def text (v : Verdict) : String :=
  match v.value with
  | some value => value.text ++ "\n"
  | none => ""

end Verdict

namespace Session

/-- The verdict on a source. Only a source without faults is evaluated. -/
def verdict (d : Dialect) (source : String) : Verdict :=
  let (tokens, report) := TokenStream.scan source .empty
  match (Parser.ofTokens tokens).parse.1 with
  | .error fault => ⟨report.issues, some fault.issue, none, none⟩
  | .ok e =>
    if report.issues = [] then
      match e.eval d with
      | .error fault => ⟨[], none, some fault.issue, none⟩
      | .ok value => ⟨[], none, none, some value⟩
    else ⟨report.issues, none, none, none⟩

/-- Every verdict is either a value or at least one issue. -/
theorem verdict_value_or_issues (d : Dialect) (source : String) :
    (∃ value, (verdict d source).value = some value ∧ (verdict d source).issues = []) ∨
      (verdict d source).value = none ∧ (verdict d source).issues ≠ [] := by
  unfold verdict
  dsimp only
  split
  · exact .inr ⟨rfl, by simp [Verdict.issues]⟩
  next e _ =>
    by_cases hlexical : (TokenStream.scan source .empty).2.issues = []
    · rw [if_pos hlexical]
      cases e.eval d with
      | error fault => exact .inr ⟨rfl, by simp [Verdict.issues]⟩
      | ok value => exact .inl ⟨value, rfl, rfl⟩
    · rw [if_neg hlexical]
      exact .inr ⟨rfl, by simpa [Verdict.issues] using hlexical⟩

/-- The issues that a stream reports are its faults, and all of them are of reading. -/
theorem issues_scan (source : String) : (TokenStream.scan source .empty).2.issues =
    (TokenStream.ofString source).drain.2.lexicalFaults.map LexicalFault.issue := by
  simp [TokenStream.scan, TokenStream.finish, TokenStream.report, Report.addAll, Report.empty]

/-- What is found in cutting and reading a source is of reading, and what is found in evaluating it
is of evaluation. -/
theorem stage_verdict (d : Dialect) (source : String) :
    (∀ i ∈ (verdict d source).lexical, i.stage = .reading) ∧
    (∀ i ∈ (verdict d source).parsing, i.stage = .reading) ∧
    ∀ i ∈ (verdict d source).evaluation, i.stage = .evaluation := by
  have hlexical : ∀ i ∈ (TokenStream.scan source .empty).2.issues, i.stage = .reading := by
    rw [issues_scan]
    intro i hi
    obtain ⟨fault, -, rfl⟩ := List.mem_map.1 hi
    rfl
  unfold verdict
  dsimp only
  split
  · exact ⟨hlexical, by simp, by simp⟩
  · split
    · split
      · exact ⟨by simp, by simp, by simp⟩
      · exact ⟨by simp, by simp, by simp⟩
    · exact ⟨hlexical, by simp, by simp⟩

/-- Whether issues of one stage hold one of a stage. -/
theorem any_stage {issues : List Issue} {stage : Stage} (h : ∀ i ∈ issues, i.stage = stage)
    (wanted : Stage) :
    issues.any (·.stage = wanted) = (decide (stage = wanted) && !issues.isEmpty) := by
  cases issues with
  | nil => simp
  | cons i issues =>
    have hi : i.stage = stage := h i List.mem_cons_self
    by_cases hstage : stage = wanted
    · simp [hi, hstage]
    · have hnone : ∀ j ∈ issues, ¬j.stage = wanted := fun j hj => by
        rwa [h j (List.mem_cons_of_mem i hj)]
      simpa [hi, hstage] using hnone

/-- What the issues of a verdict do to a report. -/
theorem addAll_verdict (r : Report) (d : Dialect) (source : String) :
    r.addAll (verdict d source).issues = ⟨r.issues ++ (verdict d source).issues,
      r.readingFault || (!(verdict d source).lexical.isEmpty || (verdict d source).parsing.isSome),
      r.evaluationFault || (verdict d source).evaluation.isSome⟩ := by
  obtain ⟨hlexical, hparsing, hevaluation⟩ := stage_verdict d source
  have hparsing : ∀ i ∈ (verdict d source).parsing.toList, i.stage = .reading := by
    simpa using hparsing
  have hevaluation : ∀ i ∈ (verdict d source).evaluation.toList, i.stage = .evaluation := by
    simpa using hevaluation
  have hisSome : ∀ o : Option Issue, o.isSome = !o.toList.isEmpty := by
    rintro (_ | _) <;> rfl
  simp [Report.addAll, Verdict.issues, any_stage hlexical, any_stage hparsing,
    any_stage hevaluation, hisSome]

/-- The verdict on a source is what the source comes to if its value is shown. -/
theorem outcome_value (d : Dialect) (source : String) : outcome d .value source =
    ((verdict d source).value.map Value.text, (verdict d source).issues) := by
  have htree : (Parser.ofTokens (TokenStream.scan source .empty).1).parse.1 =
      Expr.ofSource source := rfl
  unfold verdict
  dsimp only
  rw [issues_scan, htree, outcome, readingIssues, TokenStream.faultsOf]
  generalize (TokenStream.ofString source).drain.2.lexicalFaults = faults
  cases Expr.ofSource source with
  | error fault => cases faults <;> simp [Verdict.issues]
  | ok e =>
    cases faults with
    | cons f faults => simp [Verdict.issues]
    | nil =>
      cases heval : e.eval d with
      | error fault => simp [shown, heval, Verdict.issues]
      | ok value => simp [shown, heval, Verdict.issues]

/-- A run shows and adds what the verdict says, and leaves all else as it is. -/
theorem run_value (s : Session) (source : String) :
    s.run .value source = ((verdict s.dialect source).text,
      { s with report := s.report.addAll (verdict s.dialect source).issues }) := by
  rw [run_eq, outcome_value, Verdict.text]
  cases (verdict s.dialect source).value <;> rfl

/-! ### Histories -/

/-- What can be done with a session. A run with an output of limited room may lose what it shows. -/
inductive Call
  | run (mode : Mode) (source : String)
  | runInto (mode : Mode) (source : String) (output : Sink)
  | take
  | reset

/-- The session after a call. -/
def call (s : Session) : Call → Session
  | .run mode source => (s.run mode source).2
  | .runInto mode source output => (s.runInto mode source output).2.2
  | .take => s.take.2
  | .reset => s.reset

/-- The session after some calls, one after another. -/
def afterCalls (s : Session) (calls : List Call) : Session := calls.foldl call s

theorem dialect_show? (s : Session) (mode : Mode) (source : String) :
    (s.show? mode source).2.dialect = s.dialect := by
  have hread : (s.read? source).2.dialect = s.dialect := rfl
  unfold show?
  generalize s.read? source = found at hread ⊢
  obtain ⟨tree, s'⟩ := found
  cases tree with
  | none => exact hread
  | some e => cases mode <;> exact hread

theorem dialect_call (s : Session) (c : Call) : (s.call c).dialect = s.dialect := by
  cases c with
  | run mode source => rw [call, run_snd, dialect_show?]
  | runInto mode source k => rw [call, runInto_snd, dialect_show?]
  | take => rfl
  | reset => rfl

theorem dialect_afterCalls (s : Session) (calls : List Call) :
    (s.afterCalls calls).dialect = s.dialect := by
  induction calls generalizing s with
  | nil => rfl
  | cons c calls ih => exact (ih (s.call c)).trans (dialect_call s c)

/-- Whatever a session has gone through, running a source comes to its verdict and to nothing else:
the value or at least one issue. A session that has gone through nothing comes to the same. -/
theorem run_verdict (d : Dialect) (calls : List Call) (source : String) :
    let s := (start d).afterCalls calls
    let v := verdict d source
    let r := s.run .value source
    let readingFault := !v.lexical.isEmpty || v.parsing.isSome
    r.1 = v.text ∧
    r.2.report.issues = s.report.issues ++ v.issues ∧
    r.2.report.readingFault = (s.report.readingFault || readingFault) ∧
    r.2.report.evaluationFault = (s.report.evaluationFault || v.evaluation.isSome) ∧
    ((∃ value, v.value = some value ∧ r.1 = value.text ++ "\n" ∧ v.issues = []) ∨
      v.value = none ∧ r.1 = "" ∧ v.issues ≠ []) ∧
    (start d).run .value source = (r.1, ⟨d, v.issues, readingFault, v.evaluation.isSome⟩) := by
  intro s v r readingFault
  have hdialect : s.dialect = d := dialect_afterCalls (start d) calls
  have hr : r = (v.text, ⟨d, s.report.addAll v.issues⟩) := by
    have hrun := run_value s source
    rwa [hdialect] at hrun
  have hfresh : (start d).run .value source = (v.text, ⟨d, Report.empty.addAll v.issues⟩) :=
    run_value (start d) source
  rw [addAll_verdict] at hr hfresh
  refine ⟨by rw [hr], by rw [hr], by rw [hr], by rw [hr], ?_, ?_⟩
  · rw [hr]
    rcases verdict_value_or_issues d source with ⟨value, hvalue, hnone⟩ | ⟨hvalue, hsome⟩
    · exact .inl ⟨value, hvalue, by simp [v, Verdict.text, hvalue], hnone⟩
    · exact .inr ⟨hvalue, by simp [v, Verdict.text, hvalue], hsome⟩
  · rw [hfresh, hr]
    rfl

end Session

end LoxCalc
