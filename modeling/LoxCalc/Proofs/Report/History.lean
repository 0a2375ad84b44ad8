import LoxCalc.Report
import LoxCalc.Token.Basic
import Mathlib.Data.List.DropRight

/-!
# Histories of a report

A report is taken and started over many times in its life, and the issues and the flags do not live
equally long. `Report.Tells` says what a report tells of the calls that were made on it. Main
statement: `afterCalls_history`, the issues held are those reported since the report was last taken
or started over, the flags and the exit code tell of all that was reported since it was last started
over, and no issue is lost or returned twice.
-/

namespace LoxCalc.Report

/-- What can be done with a report: an issue of reading can be reported at any place or at a token,
and an issue of evaluation at a token. -/
inductive Call
  | reading (line : Nat) (location : Location) (message : String)
  | readingAt (t : Token) (message : String)
  | evaluationAt (t : Token) (message : String)
  | take
  | reset

namespace Call

/-- The issue that a call reports. -/
def issue? : Call → Option Issue
  | reading line location message => some ⟨.reading, line, location, message⟩
  | readingAt t message => some (t.issue .reading message)
  | evaluationAt t message => some (t.issue .evaluation message)
  | take => none
  | reset => none

/-- Whether a call starts over. -/
def isReset : Call → Bool
  | reset => true
  | _ => false

end Call

/-- The lists of issues returned so far, and the report after one more call. -/
def call (s : List (List Issue) × Report) (c : Call) : List (List Issue) × Report :=
  match c with
  | .reading line location message => (s.1, s.2.add ⟨.reading, line, location, message⟩)
  | .readingAt t message => (s.1, s.2.add (t.issue .reading message))
  | .evaluationAt t message => (s.1, s.2.add (t.issue .evaluation message))
  | .take => (s.1 ++ [s.2.take.1], s.2.take.2)
  | .reset => (s.1, empty)

/-- The lists of issues that some calls return, and the report after them; before them it is
empty. -/
def afterCalls (calls : List Call) : List (List Issue) × Report := calls.foldl call ([], empty)

/-- The issues that calls report, in their order. -/
def reported (calls : List Call) : List Issue := calls.filterMap Call.issue?

/-- The issues reported since the last call that takes the issues or starts over. -/
def reportedSinceEmptied (calls : List Call) : List Issue :=
  reported (calls.rtakeWhile (·.issue?.isSome))

/-- The issues reported since the last call that starts over. -/
def reportedSinceReset (calls : List Call) : List Issue :=
  reported (calls.rtakeWhile (!·.isReset))

/-! ### One call more -/

section Steps

variable {c : Call} {i : Issue}

theorem call_eq_add (h : c.issue? = some i) (s : List (List Issue) × Report) :
    call s c = (s.1, s.2.add i) := by
  cases c <;> simp only [Call.issue?, Option.some.injEq, reduceCtorEq] at h
  all_goals
    subst h
    rfl

theorem not_isReset_of_issue? (h : c.issue? = some i) : c.isReset = false := by
  cases c <;> simp_all [Call.issue?, Call.isReset]

theorem reported_concat (calls : List Call) (c : Call) :
    reported (calls ++ [c]) = reported calls ++ c.issue?.toList := by
  rw [reported, reported, List.filterMap_append]
  cases h : c.issue? <;> simp [h]

theorem reportedSinceEmptied_concat (calls : List Call) (h : c.issue? = some i) :
    reportedSinceEmptied (calls ++ [c]) = reportedSinceEmptied calls ++ [i] := by
  rw [reportedSinceEmptied, List.rtakeWhile_concat, if_pos (by simp [h]), reported_concat, h]
  rfl

theorem reportedSinceEmptied_concat_of_none (calls : List Call) (h : c.issue? = none) :
    reportedSinceEmptied (calls ++ [c]) = [] := by
  rw [reportedSinceEmptied, List.rtakeWhile_concat, if_neg (by simp [h])]
  rfl

theorem reportedSinceReset_concat (calls : List Call) (h : c.isReset = false) :
    reportedSinceReset (calls ++ [c]) = reportedSinceReset calls ++ c.issue?.toList := by
  rw [reportedSinceReset, List.rtakeWhile_concat, if_pos (by simp [h]), reported_concat]
  rfl

theorem reportedSinceReset_concat_reset (calls : List Call) :
    reportedSinceReset (calls ++ [.reset]) = [] := by
  rw [reportedSinceReset, List.rtakeWhile_concat, if_neg (by simp [Call.isReset])]
  rfl

end Steps

/-! ### What a report tells -/

/-- What the lists returned and the report tell of the calls made. -/
structure Tells (calls : List Call) (s : List (List Issue) × Report) : Prop where
  issues_eq : s.2.issues = reportedSinceEmptied calls
  issues_suffix : s.2.issues <:+ reportedSinceReset calls
  readingFault_eq : s.2.readingFault = (reportedSinceReset calls).any (·.stage = .reading)
  evaluationFault_eq : s.2.evaluationFault = (reportedSinceReset calls).any (·.stage = .evaluation)
  flatten_append : (∀ c ∈ calls, ¬c.isReset) → s.1.flatten ++ s.2.issues = reported calls

theorem tells_nil : Tells [] ([], empty) where
  issues_eq := rfl
  issues_suffix := List.suffix_rfl
  readingFault_eq := rfl
  evaluationFault_eq := rfl
  flatten_append _ := rfl

section Tells

variable {calls : List Call} {s : List (List Issue) × Report}

/-- An issue reported goes behind those held and into its flag. -/
theorem Tells.add (h : Tells calls s) {c : Call} {i : Issue} (hi : c.issue? = some i) :
    Tells (calls ++ [c]) (s.1, s.2.add i) := by
  have hsince : reportedSinceReset (calls ++ [c]) = reportedSinceReset calls ++ [i] := by
    rw [reportedSinceReset_concat calls (not_isReset_of_issue? hi), hi]
    rfl
  constructor
  case issues_eq => rw [reportedSinceEmptied_concat calls hi, ← h.issues_eq]; rfl
  case issues_suffix =>
    obtain ⟨before, hbefore⟩ := h.issues_suffix
    refine ⟨before, ?_⟩
    rw [hsince, ← hbefore, List.append_assoc]
    rfl
  case readingFault_eq => simp [hsince, Report.add, addAll, h.readingFault_eq]
  case evaluationFault_eq => simp [hsince, Report.add, addAll, h.evaluationFault_eq]
  case flatten_append =>
    intro hreset
    rw [reported_concat, hi, ← h.flatten_append fun c hc => hreset c (List.mem_append_left _ hc),
      List.append_assoc]
    rfl

/-- Taking the issues returns those held and keeps the flags. -/
theorem Tells.take (h : Tells calls s) :
    Tells (calls ++ [.take]) (s.1 ++ [s.2.take.1], s.2.take.2) := by
  have hsince : reportedSinceReset (calls ++ [.take]) = reportedSinceReset calls := by
    rw [reportedSinceReset_concat calls rfl]
    exact List.append_nil _
  constructor
  case issues_eq => rw [reportedSinceEmptied_concat_of_none calls rfl]; rfl
  case issues_suffix => exact List.nil_suffix
  case readingFault_eq => rw [hsince, ← h.readingFault_eq]; rfl
  case evaluationFault_eq => rw [hsince, ← h.evaluationFault_eq]; rfl
  case flatten_append =>
    intro hreset
    rw [reported_concat, ← h.flatten_append fun c hc => hreset c (List.mem_append_left _ hc)]
    simp [Report.take, Call.issue?]

/-- Starting over forgets everything. -/
theorem tells_reset (calls : List Call) (taken : List (List Issue)) :
    Tells (calls ++ [.reset]) (taken, empty) := by
  constructor
  case issues_eq => rw [reportedSinceEmptied_concat_of_none calls rfl]; rfl
  case issues_suffix => exact List.nil_suffix
  case readingFault_eq => rw [reportedSinceReset_concat_reset]; rfl
  case evaluationFault_eq => rw [reportedSinceReset_concat_reset]; rfl
  case flatten_append => exact fun hreset => absurd rfl (hreset .reset (by simp))

theorem Tells.call (h : Tells calls s) (c : Call) : Tells (calls ++ [c]) (call s c) := by
  cases hi : c.issue? with
  | some i => rw [call_eq_add hi]; exact h.add hi
  | none =>
    cases c with
    | take => exact h.take
    | reset => exact tells_reset calls s.1
    | _ => simp [Call.issue?] at hi

theorem tells_afterCalls (calls : List Call) : Tells calls (afterCalls calls) := by
  induction calls using List.reverseRecOn with
  | nil => exact tells_nil
  | append_singleton calls c ih =>
    rw [afterCalls, List.foldl_append]
    exact ih.call c

/-- Every issue is of reading or of evaluation. -/
theorem any_stage_or {issues : List Issue} (h : issues ≠ []) :
    issues.any (·.stage = .reading) ∨ issues.any (·.stage = .evaluation) := by
  obtain ⟨i, rest, rfl⟩ := List.exists_cons_of_ne_nil h
  cases hi : i.stage <;> simp [hi]

/-- A report is empty when nothing was reported since it was last started over, even if the issues
were taken in between. -/
theorem Tells.eq_empty_iff (h : Tells calls s) : s.2 = empty ↔ reportedSinceReset calls = [] := by
  constructor
  · intro hempty
    by_contra hne
    rcases any_stage_or hne with hany | hany
    · rw [← h.readingFault_eq, hempty] at hany
      cases hany
    · rw [← h.evaluationFault_eq, hempty] at hany
      cases hany
  · intro hnil
    have hissues : s.2.issues = [] := List.suffix_nil.1 (hnil ▸ h.issues_suffix)
    have hreading : s.2.readingFault = false := by rw [h.readingFault_eq, hnil]; rfl
    have hevaluation : s.2.evaluationFault = false := by rw [h.evaluationFault_eq, hnil]; rfl
    calc s.2 = ⟨s.2.issues, s.2.readingFault, s.2.evaluationFault⟩ := rfl
      _ = empty := by rw [hissues, hreading, hevaluation]; rfl

theorem Tells.exitCode_eq (h : Tells calls s) : s.2.exitCode =
    if ∃ i ∈ reportedSinceReset calls, i.stage = .reading then 65
    else if ∃ i ∈ reportedSinceReset calls, i.stage = .evaluation then 70 else 0 := by
  simp [exitCode, h.readingFault_eq, h.evaluationFault_eq]

end Tells

/-- After any calls, a report holds the issues reported since it was last taken or started over, in
their order. As long as it is not started over, the lists returned and the issues held are together
all that was reported, in its order. The flags and the exit code tell of what was reported since it
was last started over, whatever was taken in between, and the report is empty when that is nothing.
The text is that of the issues held, with line feeds between them. -/
theorem afterCalls_history (calls : List Call) :
    let taken := (afterCalls calls).1
    let r := (afterCalls calls).2
    let since := reportedSinceReset calls
    r.issues = reportedSinceEmptied calls ∧
    ((∀ c ∈ calls, ¬c.isReset) → taken.flatten ++ r.issues = reported calls) ∧
    (r.readingFault ↔ ∃ i ∈ since, i.stage = .reading) ∧
    (r.evaluationFault ↔ ∃ i ∈ since, i.stage = .evaluation) ∧
    r.exitCode = (if ∃ i ∈ since, i.stage = .reading then 65
      else if ∃ i ∈ since, i.stage = .evaluation then 70 else 0) ∧
    (r = empty ↔ since = []) ∧
    r.text = "\n".intercalate ((reportedSinceEmptied calls).map Issue.text) := by
  intro taken r since
  have h := tells_afterCalls calls
  refine ⟨h.issues_eq, h.flatten_append, ?_, ?_, h.exitCode_eq, h.eq_empty_iff, ?_⟩
  · simpa using congrArg (· = true) h.readingFault_eq
  · simpa using congrArg (· = true) h.evaluationFault_eq
  · rw [text, h.issues_eq]

/-- An issue of evaluation that was taken is neither lost nor returned again, and an issue of
reading behind it decides the exit code. -/
theorem afterCalls_history_taken :
    let calls : List Call := [.evaluationAt ⟨.symbol .minus, "-", 1⟩ "Operand must be a number.",
      .take, .reading 2 .unknown "Unterminated string."]
    (∀ c ∈ calls, ¬c.isReset) ∧
      (afterCalls calls).1.flatten ++ (afterCalls calls).2.issues = reported calls ∧
      (afterCalls calls).2.issues = [⟨.reading, 2, .unknown, "Unterminated string."⟩] ∧
      (afterCalls calls).2.evaluationFault ∧ (afterCalls calls).2.exitCode = 65 := by
  intro calls
  have hreset : ∀ c ∈ calls, ¬c.isReset := by simp [calls, Call.isReset]
  obtain ⟨hissues, hall, -, hevaluation, hexit, -, -⟩ := afterCalls_history calls
  refine ⟨hreset, hall hreset, hissues, ?_, ?_⟩
  · exact hevaluation.2 ⟨_, List.mem_cons_self, rfl⟩
  · exact hexit.trans (if_pos ⟨_, List.mem_cons_of_mem _ List.mem_cons_self, rfl⟩)

end LoxCalc.Report
