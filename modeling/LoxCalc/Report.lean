import LoxCalc.Issue

/-!
# Reports

A report collects issues. Taking the issues out does not forget that there were any: the two flags
stay until the report is replaced by an empty one, and they alone decide the exit code.
-/

namespace LoxCalc

/-- The issues held, oldest first, and whether any was found at each stage. -/
structure Report where
  issues : List Issue
  readingFault : Bool
  evaluationFault : Bool
  deriving DecidableEq

namespace Report

/-- A report of nothing. -/
def empty : Report := ⟨[], false, false⟩

/-- A report with issues added behind those it holds. -/
def addAll (r : Report) (issues : List Issue) : Report where
  issues := r.issues ++ issues
  readingFault := r.readingFault || issues.any (·.stage = .reading)
  evaluationFault := r.evaluationFault || issues.any (·.stage = .evaluation)

/-- A report with one more issue. -/
def add (r : Report) (i : Issue) : Report := r.addAll [i]

/-- The issues held, and the report without them. -/
def take (r : Report) : List Issue × Report := (r.issues, { r with issues := [] })

/-- Whether any issue is held. -/
def hasIssues (r : Report) : Bool := !r.issues.isEmpty

/-- The issues held, one below the other. -/
def text (r : Report) : String := "\n".intercalate (r.issues.map Issue.text)

/-- The exit code that tells of the faults found: a fault in reading outweighs one in evaluation. -/
def exitCode (r : Report) : Nat :=
  if r.readingFault then 65 else if r.evaluationFault then 70 else 0

@[simp] theorem addAll_nil (r : Report) : r.addAll [] = r := by simp [addAll]

theorem addAll_append (r : Report) (xs ys : List Issue) :
    r.addAll (xs ++ ys) = (r.addAll xs).addAll ys := by
  simp [addAll, Bool.or_assoc]

end Report

end LoxCalc
