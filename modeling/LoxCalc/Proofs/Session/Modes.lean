import LoxCalc.Proofs.Session.Verdict

/-!
# Trees and values

A session that shows the tree of a source reads the source just as one that shows its value, and
stops before the evaluation. Main statement: `run_modes`, the tree is shown exactly if there is no
fault in the source, so that the value of that tree is shown or the one fault of its evaluation is
added; and any other source comes to the same issues in both ways.
-/

namespace LoxCalc

namespace Report

variable {r : Report} {issues : List Issue}

theorem evaluationFault_addAll_of_reading (h : ∀ i ∈ issues, i.stage = .reading) :
    (r.addAll issues).evaluationFault = r.evaluationFault := by
  simp [addAll, Session.any_stage h]

theorem add_of_evaluation {i : Issue} (h : i.stage = .evaluation) :
    r.add i = { r with issues := r.issues ++ [i], evaluationFault := true } := by
  simp [add, addAll, h]

end Report

namespace Session

open TokenStream (faultsOf)

section Tree

variable {source : String} {e : Expr}

theorem read?_of_tree (hfaults : faultsOf source = []) (hsource : Expr.ofSource source = .ok e)
    (s : Session) : s.read? source = (some e, s) := by
  have hissues : readingIssues source = [] := readingIssues_eq_nil_iff.2 ⟨hfaults, e, hsource⟩
  rw [read?_eq, hissues, hfaults, hsource, Report.addAll_nil]
  rfl

/-- A tree has a value, which is shown, or one issue of evaluation, which is added. -/
theorem run_value_cases (hfaults : faultsOf source = []) (hsource : Expr.ofSource source = .ok e)
    (s : Session) :
    (∃ v, e.eval s.dialect = .ok v ∧ s.run .value source = (v.text ++ "\n", s)) ∨
      ∃ fault, e.eval s.dialect = .error fault ∧ fault.issue.stage = .evaluation ∧
        s.run .value source = ("", { s with report := { s.report with
          issues := s.report.issues ++ [fault.issue], evaluationFault := true } }) := by
  rw [run_eq, outcome_of_tree hfaults hsource, shown]
  cases e.eval s.dialect with
  | ok v => exact .inl ⟨v, rfl, by rw [Report.addAll_nil]; rfl⟩
  | error fault =>
    refine .inr ⟨fault, rfl, fault.stage_issue, ?_⟩
    rw [← Report.add_of_evaluation fault.stage_issue]
    rfl

end Tree

/-- Showing the tree and showing the value accept and refuse the same sources. A session shows the
tree exactly if the source has no fault in its tokens and a tree. It is then the tree that is
evaluated for the value, and showing it adds no issue; the value is shown without an issue too, or
nothing is shown and one issue is added, which is of evaluation. Where no tree is shown, no value is
shown either, and both add the same issues to those held. Showing a tree adds issues of reading
only. None of the issues depends on the room in the output. -/
theorem run_modes (s : Session) (source : String) :
    let tree := s.run .tree source
    let value := s.run .value source
    (tree.1 ≠ "" ↔ faultsOf source = [] ∧ ∃ e, Expr.ofSource source = .ok e) ∧
    (∀ e, faultsOf source = [] → Expr.ofSource source = .ok e →
      s.read? source = (some e, s) ∧ tree = (e.text ++ "\n", s) ∧
      ((∃ v, e.eval s.dialect = .ok v ∧ value = (v.text ++ "\n", s)) ∨
        ∃ fault, e.eval s.dialect = .error fault ∧ fault.issue.stage = .evaluation ∧
          value = ("", { s with report := { s.report with
            issues := s.report.issues ++ [fault.issue], evaluationFault := true } }))) ∧
    (tree.1 = "" → value.1 = "" ∧ value.2 = tree.2) ∧
    (∃ added, (∀ i ∈ added, i.stage = .reading) ∧
      tree.2 = { s with report := s.report.addAll added } ∧
      tree.2.report.evaluationFault = s.report.evaluationFault) ∧
    ∀ mode k, (s.runInto mode source k).2.2 = (s.run mode source).2 := by
  intro tree value
  have hsink : ∀ mode k, (s.runInto mode source k).2.2 = (s.run mode source).2 := fun mode k => by
    rw [runInto_snd, run_snd]
  by_cases hissues : readingIssues source = []
  · obtain ⟨hfaults, e, hsource⟩ := readingIssues_eq_nil_iff.1 hissues
    have htree : tree = (e.text ++ "\n", s) := run_tree hfaults hsource s
    have hshown : tree.1 ≠ "" := by simp [htree]
    refine ⟨iff_of_true hshown ⟨hfaults, e, hsource⟩, fun e' _ hsource' => ?_,
      fun hempty => absurd hempty hshown, ⟨[], by simp, ?_, ?_⟩, hsink⟩
    · obtain rfl := Except.ok.inj (hsource.symm.trans hsource')
      exact ⟨read?_of_tree hfaults hsource s, htree, run_value_cases hfaults hsource s⟩
    · rw [htree, Report.addAll_nil]
    · rw [htree]
  · have htree : tree = ("", { s with report := s.report.addAll (readingIssues source) }) :=
      run_of_issues hissues s .tree
    have hvalue : value = tree := (run_of_issues hissues s .value).trans htree.symm
    have hnone : ¬(faultsOf source = [] ∧ ∃ e, Expr.ofSource source = .ok e) :=
      mt readingIssues_eq_nil_iff.2 hissues
    refine ⟨iff_of_false (by simp [htree]) hnone, fun e hfaults hsource => ?_, fun hempty => ?_,
      ⟨_, stage_readingIssues source, ?_, ?_⟩, hsink⟩
    · exact absurd ⟨hfaults, e, hsource⟩ hnone
    · exact ⟨hvalue ▸ hempty, congrArg Prod.snd hvalue⟩
    · rw [htree]
    · rw [htree]
      exact Report.evaluationFault_addAll_of_reading (stage_readingIssues source)

/-- A stray character is enough for a source to be refused, though a whole expression is read. -/
example : (Expr.ofSource "1 @ + 2").isOk ∧ ((start .standard).run .tree "1 @ + 2").1 = "" ∧
    ((start .standard).run .value "1 @ + 2").1 = "" := by
  decide +kernel

end Session

end LoxCalc
