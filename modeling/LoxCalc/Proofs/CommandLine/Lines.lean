import LoxCalc.CommandLine.Prompt
import LoxCalc.Proofs.Session.Verdict

/-!
# Lines at the prompt

The prompt keeps one session for all lines, but takes its issues out and resets it behind each line,
so that every line is run as if it were the first. Main statement: `run_lines`, what the prompt
writes is what new sessions write for the lines by themselves, up to the line that ends it.
-/

namespace LoxCalc.CommandLine

/-! ### Texts and their bytes -/

open Text (bytes)

theorem decode_eq_ok_iff {line : List UInt8} {text : String} :
    decode ⟨line.toArray⟩ = .ok text ↔ line = bytes text := by
  unfold decode String.fromUTF8?
  by_cases h : ByteArray.IsValidUTF8 ⟨line.toArray⟩
  · rw [dif_pos h]
    simp only [Except.ok.injEq]
    constructor
    · rintro rfl
      rfl
    · rintro rfl
      rfl
  · rw [dif_neg h]
    simp only [reduceCtorEq, false_iff]
    rintro rfl
    exact h text.isValidUTF8

theorem decode_of_not_isValidUTF8 {line : List UInt8}
    (h : ¬ByteArray.IsValidUTF8 ⟨line.toArray⟩) : decode ⟨line.toArray⟩ = .error .notText := by
  rw [decode, String.fromUTF8?, dif_neg h]

/-! ### Outcomes and what is printed -/

theorem Outcome.after_after (o : Outcome) (a b c d : String) :
    (o.after a b).after c d = o.after (c ++ a) (d ++ b) := by
  simp [after, String.append_assoc]

theorem printed_append (xs ys : List Issue) : printed (xs ++ ys) = printed xs ++ printed ys := by
  rw [printed, List.map_append, String.join_append]
  rfl

namespace Prompt

/-! ### Cutting an input -/

/-- The cuts of an input behind each line feed. Only the last line may lack one. -/
inductive CutInLines : List UInt8 → List (List UInt8) → Prop
  | nil : CutInLines [] []
  | last {line : List UInt8} (nonempty : line ≠ []) (no_lineFeed : 10 ∉ line) :
      CutInLines line [line]
  | cons {line rest : List UInt8} {ls : List (List UInt8)} (no_lineFeed : 10 ∉ line)
      (more : CutInLines rest ls) : CutInLines (line ++ 10 :: rest) ((line ++ [10]) :: ls)

theorem lines_lineFeed (rest : List UInt8) : lines (10 :: rest) = [10] :: lines rest := by
  rw [lines, List.foldr_cons]
  change addByte 10 (lines rest) = _
  cases lines rest <;> rfl

theorem lines_append_lineFeed {line : List UInt8} (h : 10 ∉ line) (rest : List UInt8) :
    lines (line ++ 10 :: rest) = (line ++ [10]) :: lines rest := by
  induction line with
  | nil => exact lines_lineFeed rest
  | cons b line ih =>
    obtain ⟨hb, h⟩ := not_or.1 (mt List.mem_cons.2 h)
    have hcons : lines (b :: (line ++ 10 :: rest)) = addByte b (lines (line ++ 10 :: rest)) := rfl
    rw [List.cons_append, hcons, ih h, addByte, if_neg (Ne.symm hb)]
    rfl

theorem lines_of_notMem {line : List UInt8} (nonempty : line ≠ []) (h : 10 ∉ line) :
    lines line = [line] := by
  obtain ⟨b, line, rfl⟩ := List.exists_cons_of_ne_nil nonempty
  induction line generalizing b with
  | nil => rfl
  | cons c line ih =>
    obtain ⟨hb, h⟩ := not_or.1 (mt List.mem_cons.2 h)
    have hcons : lines (b :: c :: line) = addByte b (lines (c :: line)) := rfl
    rw [hcons, ih c (by simp) h, addByte, if_neg (Ne.symm hb)]

theorem cutInLines_lines (input : List UInt8) : CutInLines input (lines input) := by
  induction input with
  | nil => exact .nil
  | cons b rest ih =>
    by_cases hb : b = 10
    · subst hb
      rw [lines_lineFeed]
      exact .cons List.not_mem_nil ih
    -- the byte goes in front of the first line of the rest
    have hcons : lines (b :: rest) = addByte b (lines rest) := rfl
    rw [hcons]
    generalize lines rest = ls at ih ⊢
    cases ih with
    | nil => exact .last (by simp) (by simpa using Ne.symm hb)
    | last nonempty no_lineFeed =>
      rw [addByte, if_neg hb]
      exact .last (by simp) (by simp [no_lineFeed, Ne.symm hb])
    | @cons line rest ls no_lineFeed more =>
      rw [addByte, if_neg hb]
      have hline : 10 ∉ b :: line := by simp [no_lineFeed, Ne.symm hb]
      exact .cons hline more

/-- An input is cut into lines in exactly one way. -/
theorem cutInLines_iff {input : List UInt8} {ls : List (List UInt8)} :
    CutInLines input ls ↔ ls = lines input := by
  constructor
  · intro h
    induction h with
    | nil => rfl
    | last nonempty no_lineFeed => exact (lines_of_notMem nonempty no_lineFeed).symm
    | cons no_lineFeed _ ih => rw [lines_append_lineFeed no_lineFeed, ih]
  · rintro rfl
    exact cutInLines_lines input

/-- What comes behind a line with a line feed does not change the lines up to it. -/
theorem lines_of_cutInLines {input line : List UInt8} {front behind : List (List UInt8)}
    (h : CutInLines input (front ++ line :: behind)) (hline : 10 ∈ line) (more : List UInt8) :
    lines (front.flatten ++ line ++ more) = front ++ line :: lines more := by
  induction front generalizing input with
  | nil =>
    cases h with
    | last _ no_lineFeed => exact absurd hline no_lineFeed
    | cons no_lineFeed => simpa using lines_append_lineFeed no_lineFeed more
  | cons first front ih =>
    rw [List.cons_append] at h
    generalize hall : front ++ line :: behind = all at h
    cases h with
    | last => simp at hall
    | cons no_lineFeed hmore =>
      have hlines := lines_append_lineFeed no_lineFeed (front.flatten ++ line ++ more)
      rw [ih (hall ▸ hmore)] at hlines
      simpa using hlines

/-! ### Ending the session -/

/-- Whether a text has nothing in it but carriage returns and line feeds. -/
def IsLineEnd (text : String) : Prop := ∀ c ∈ text.toList, c = '\r' ∨ c = '\n'

theorem endsSession_iff {text : String} : endsSession text ↔ IsLineEnd text := by
  simp [endsSession, IsLineEnd]

/-- The ways in which the prompt ends in front of some lines, with the exit code and what is said of
it: there is no line, or one with nothing in it, or one that is no text. -/
inductive EndsAt : List (List UInt8) → Nat → String → Prop
  | noLine : EndsAt [] 0 ""
  | emptyLine {text : String} (behind : List (List UInt8)) (isLineEnd : IsLineEnd text) :
      EndsAt (bytes text :: behind) 0 ""
  | notText {line : List UInt8} (behind : List (List UInt8))
      (not_valid : ¬ByteArray.IsValidUTF8 ⟨line.toArray⟩) :
      EndsAt (line :: behind) 1 "Error: stream did not contain valid UTF-8\n"

theorem answer_of_endsAt {rest : List (List UInt8)} {exit : Nat} {error : String}
    (h : EndsAt rest exit error) (mode : Mode) (s : Session) :
    answer mode s rest = ⟨exit, sign, error⟩ := by
  cases h with
  | noLine => rfl
  | @emptyLine text behind isLineEnd =>
    have hstep : step mode s (bytes text) = .done ⟨0, "", ""⟩ := by
      rw [step, decode_eq_ok_iff.2 rfl]
      exact if_pos (endsSession_iff.2 isLineEnd)
    rw [answer, hstep]
    rfl
  | notText behind not_valid =>
    rw [answer, step, decode_of_not_isValidUTF8 not_valid]
    rfl

/-- Only the first line in front of which the prompt ends matters. -/
theorem EndsAt.of_head {line : List UInt8} {behind : List (List UInt8)} {exit : Nat}
    {error : String} (h : EndsAt (line :: behind) exit error) (behind' : List (List UInt8)) :
    EndsAt (line :: behind') exit error := by
  cases h with
  | emptyLine _ isLineEnd => exact .emptyLine behind' isLineEnd
  | notText _ not_valid => exact .notText behind' not_valid

/-- Lines are answered up to one that ends the prompt. -/
theorem exists_endsAt (ls : List (List UInt8)) :
    ∃ (texts : List String) (rest : List (List UInt8)) (exit : Nat) (error : String),
      ls = texts.map bytes ++ rest ∧ (∀ t ∈ texts, ¬IsLineEnd t) ∧ EndsAt rest exit error := by
  induction ls with
  | nil => exact ⟨[], [], _, _, rfl, by simp, .noLine⟩
  | cons line ls ih =>
    cases hdecode : decode ⟨line.toArray⟩ with
    | error fault =>
      refine ⟨[], line :: ls, _, _, rfl, by simp, .notText ls fun hvalid => ?_⟩
      have htext : decode ⟨line.toArray⟩ = .ok (String.fromUTF8 _ hvalid) :=
        decode_eq_ok_iff.2 rfl
      cases hdecode.symm.trans htext
    | ok text =>
      obtain rfl := decode_eq_ok_iff.1 hdecode
      by_cases htext : IsLineEnd text
      · exact ⟨[], bytes text :: ls, _, _, rfl, by simp, .emptyLine ls htext⟩
      · obtain ⟨texts, rest, exit, error, rfl, htexts, hends⟩ := ih
        exact ⟨text :: texts, rest, exit, error, rfl, List.forall_mem_cons.2 ⟨htext, htexts⟩,
          hends⟩

/-! ### Answering lines -/

/-- A line that does not end the prompt is run as the first of a session, and leaves a session as it
is at the start. -/
theorem step_bytes {text : String} (h : ¬IsLineEnd text) (d : Dialect) (mode : Mode) :
    step mode (.start d) (bytes text) = .next ((Session.start d).run mode text).1
      (printed ((Session.start d).run mode text).2.report.issues) (.start d) := by
  have hdialect : ((Session.start d).run mode text).2.dialect = d := by
    rw [Session.run_snd, Session.dialect_show?]
    rfl
  have hreset : ((Session.start d).run mode text).2.take.2.reset = .start d :=
    congrArg (Session.mk · .empty) hdialect
  rw [step, decode_eq_ok_iff.2 rfl]
  dsimp only
  rw [if_neg (mt endsSession_iff.1 h), hreset]
  rfl

/-- What is written for some texts by themselves. -/
def shown (d : Dialect) (mode : Mode) (texts : List String) : String :=
  String.join (texts.map fun t => sign ++ ((Session.start d).run mode t).1)

/-- The issues of some texts by themselves. -/
def issues (d : Dialect) (mode : Mode) (texts : List String) : List Issue :=
  texts.flatMap fun t => ((Session.start d).run mode t).2.report.issues

/-- The lines in front of others are answered one after another. -/
theorem answer_append (d : Dialect) (mode : Mode) {texts : List String}
    (h : ∀ t ∈ texts, ¬IsLineEnd t) (rest : List (List UInt8)) :
    answer mode (.start d) (texts.map bytes ++ rest) =
      (answer mode (.start d) rest).after (shown d mode texts) (printed (issues d mode texts)) := by
  induction texts with
  | nil => simp [shown, issues, printed, Outcome.after]
  | cons text texts ih =>
    obtain ⟨htext, htexts⟩ := List.forall_mem_cons.1 h
    rw [List.map_cons, List.cons_append, answer, step_bytes htext]
    dsimp only
    have hshown : shown d mode (text :: texts) =
        sign ++ ((Session.start d).run mode text).1 ++ shown d mode texts := String.join_cons
    have hissues : printed (issues d mode (text :: texts)) =
        printed ((Session.start d).run mode text).2.report.issues ++
          printed (issues d mode texts) := printed_append _ _
    rw [ih htexts, Outcome.after_after, hshown, hissues]

/-- The prompt answers the lines of its input one after another, each as a new session would, until
the input ends or a line ends it: one with nothing in it, or one that is no text. It writes its sign
in front of each line, and what a new session writes for the line by itself; then its sign once
more. The issues printed are those that new sessions find in the lines. The exit code does not tell
of them. What comes behind the line that ends the prompt changes nothing. -/
theorem run_lines (d : Dialect) (mode : Mode) (input : ByteArray) :
    ∃ cut, (∀ ls, CutInLines input.data.toList ls ↔ ls = cut) ∧
      ∃ (texts : List String) (rest : List (List UInt8)) (exit : Nat) (error : String),
        cut = texts.map bytes ++ rest ∧ (∀ t ∈ texts, ¬IsLineEnd t) ∧ EndsAt rest exit error ∧
        run d mode input =
          ⟨exit, String.join (texts.map fun t => "> " ++ ((Session.start d).run mode t).1) ++ "> ",
            printed (texts.flatMap fun t => ((Session.start d).run mode t).2.report.issues) ++
              error⟩ ∧
        ∀ line ∈ rest.head?, 10 ∈ line → ∀ more : List UInt8,
          run d mode ⟨((texts.map bytes).flatten ++ line ++ more).toArray⟩ = run d mode input := by
  refine ⟨lines input.data.toList, fun ls => cutInLines_iff, ?_⟩
  obtain ⟨texts, rest, exit, error, hcut, htexts, hends⟩ :=
    exists_endsAt (lines input.data.toList)
  have hrun : run d mode input = Outcome.after ⟨exit, sign, error⟩ (shown d mode texts)
      (printed (issues d mode texts)) := by
    rw [run, hcut, answer_append d mode htexts, answer_of_endsAt hends]
  refine ⟨texts, rest, exit, error, hcut, htexts, hends, hrun, fun line hline hfeed more => ?_⟩
  obtain ⟨behind, rfl⟩ := List.head?_eq_some_iff.1 hline
  have hlines := lines_of_cutInLines (cutInLines_iff.2 hcut.symm) hfeed more
  rw [hrun, run]
  dsimp only
  rw [hlines, answer_append d mode htexts, answer_of_endsAt (hends.of_head (lines more))]

/-- A fault on one line is not held against the next, and nothing behind an empty line is read. -/
example : run .standard .value "-nil\n1 + 1\n\r\n3\n".toUTF8 =
    ⟨0, "> > 2\n> ", "[line 1] Runtime error at '-': Operand must be a number.\n"⟩ := by
  decide +kernel

end Prompt

end LoxCalc.CommandLine
