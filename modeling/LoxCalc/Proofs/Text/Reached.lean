import LoxCalc.Proofs.Text.Slices

/-!
# Cursors that can be reached

A row of cursors starts with one at the start of a text. Each cursor of the row can be called, and a
copy of it can be put behind the others; a call moves no other cursor. Main statements:
`reached_iff`, the cursors of such rows are those that stand between a text that was read and a text
that is left, and `reached_equality`, two of them that compare equal cannot be told apart by any
calls, although the comparison does not look at the line.
-/

namespace LoxCalc.Cursor

/-! ### Calls -/

/-- What can be asked of a cursor: to move on, what it knows of its place, and how it lies to
another cursor. -/
inductive Call
  | next
  | nextIf (p : Char → Bool)
  | skip (x : Char)
  | advanceWhile (p : Char → Bool)
  | peek
  | peekSecond
  | isAtEnd
  | offset
  | line
  | sliceTo (stop : Cursor)
  | sliceFrom (start : Cursor)
  | isEqualTo (other : Cursor)
  | summary
  | details (isPlain : Char → Bool)

/-- What a call returns. -/
inductive Answer
  | character (x : Option Char)
  | truth (b : Bool)
  | number (n : Nat)
  | slice (result : Except SliceFault (List Char))
  | text (s : String)

/-- What comes of reading a character. A cursor that cannot read it stays. -/
def orStay (c : Cursor) : Option (Char × Cursor) → Answer × Cursor
  | some (x, after) => (.character (some x), after)
  | none => (.character none, c)

/-- What a call returns, and the cursor after it. -/
def answer (c : Cursor) : Call → Answer × Cursor
  | .next => c.orStay c.next?
  | .nextIf p => c.orStay (c.nextIf? p)
  | .skip x =>
    match c.skip? x with
    | some after => (.truth true, after)
    | none => (.truth false, c)
  | .advanceWhile p => (.number (c.advanceWhile p).1, (c.advanceWhile p).2)
  | .peek => (.character c.peek?, c)
  | .peekSecond => (.character c.peekSecond?, c)
  | .isAtEnd => (.truth c.isAtEnd, c)
  | .offset => (.number c.offset, c)
  | .line => (.number c.line, c)
  | .sliceTo stop => (.slice (c.slice stop), c)
  | .sliceFrom start => (.slice (start.slice c), c)
  | .isEqualTo other => (.truth (c == other), c)
  | .summary => (.text c.summary, c)
  | .details isPlain => (.text (c.details isPlain), c)

/-- What some calls return, and the cursor after them. -/
def answers (c : Cursor) : List Call → List Answer × Cursor
  | [] => ([], c)
  | k :: calls =>
    let (a, after) := c.answer k
    let (more, last) := answers after calls
    (a :: more, last)

/-- A step in a row of cursors: a copy of the cursor at a place goes to the end of the row, or that
cursor is called. Nothing happens where there is no cursor. -/
inductive Step
  | copy (place : Nat)
  | call (place : Nat) (k : Call)

/-- The row after a step. -/
def step (row : List Cursor) : Step → List Cursor
  | .copy place => row ++ row[place]?.toList
  | .call place k => row.modify place fun c => (c.answer k).2

/-- The row that steps make of a single cursor at the start of a text. -/
def afterSteps (text : List Char) (steps : List Step) : List Cursor :=
  steps.foldl step [ofText text]

/-- Whether a cursor comes to stand in a row that starts from a text. -/
def Reached (text : List Char) (c : Cursor) : Prop := ∃ steps, c ∈ afterSteps text steps

/-! ### Every call passes some text -/

section Passing

variable {c : Cursor} {read rest : List Char}

/-- A cursor moves over a text that comes next; most calls leave it where it is. -/
theorem exists_answer_snd_eq (c : Cursor) (k : Call) :
    ∃ read rest, c.rest = read ++ rest ∧ (c.answer k).2 = c.pass read := by
  cases k with
  | next =>
    cases hrest : c.rest with
    | nil => exact ⟨[], [], rfl, by rw [answer, next?_eq_none hrest]; rfl⟩
    | cons x rest => exact ⟨[x], rest, rfl, by rw [answer, next?_eq hrest]; rfl⟩
  | nextIf p =>
    cases hread : c.nextIf? p with
    | none => exact ⟨[], c.rest, rfl, by rw [answer, hread]; rfl⟩
    | some found =>
      obtain ⟨hrest, hx⟩ := rest_of_nextIf? hread
      exact ⟨[found.1], found.2.rest, hrest, by rw [answer, nextIf?_eq hrest hx]; rfl⟩
  | skip x =>
    cases hread : c.skip? x with
    | none => exact ⟨[], c.rest, rfl, by rw [answer, hread]; rfl⟩
    | some after =>
      have hrest := rest_of_skip? hread
      exact ⟨[x], after.rest, hrest, by rw [answer, skip?_eq hrest]⟩
  | advanceWhile p =>
    obtain ⟨read, rest, hrest, hread, hbehind⟩ := exists_span p c.rest
    exact ⟨read, rest, hrest, by rw [answer, advanceWhile, span_eq hrest hread hbehind]⟩
  | _ => exact ⟨[], c.rest, rfl, rfl⟩

/-- As many calls as a text has characters read it. -/
theorem answers_replicate_next (h : c.rest = read ++ rest) :
    (c.answers (List.replicate read.length .next)).2 = c.pass read := by
  induction read generalizing c with
  | nil => rfl
  | cons x read ih =>
    have hnext : c.answer .next = (.character (some x), c.pass [x]) := by
      rw [answer, next?_eq h]
      rfl
    have hbehind : (c.pass [x]).rest = read ++ rest := rest_pass h
    rw [List.length_cons, List.replicate_succ, answers, hnext]
    exact (ih hbehind).trans (pass_append c [x] read)

end Passing

/-! ### Rows -/

/-- A cursor of a row after a step was there before, or was called. -/
theorem mem_step {row : List Cursor} {s : Step} {c : Cursor} (h : c ∈ step row s) :
    c ∈ row ∨ ∃ d ∈ row, ∃ k, c = (d.answer k).2 := by
  cases s with
  | copy place =>
    rcases List.mem_append.1 h with h | h
    · exact .inl h
    · exact .inl (List.mem_of_getElem? (Option.mem_toList.1 h))
  | call place k =>
    obtain ⟨i, hi⟩ := List.mem_iff_getElem?.1 h
    rw [step, List.getElem?_modify, Option.map_eq_map, Option.map_eq_some_iff] at hi
    obtain ⟨d, hd, rfl⟩ := hi
    have hmem := List.mem_of_getElem? hd
    by_cases hplace : place = i
    · exact .inr ⟨d, hmem, k, if_pos hplace⟩
    · exact .inl (by rwa [if_neg hplace])

/-- Calls of the only cursor of a row. -/
theorem foldl_step_call (c : Cursor) (calls : List Call) :
    (calls.map (Step.call 0)).foldl step [c] = [(c.answers calls).2] := by
  induction calls generalizing c with
  | nil => rfl
  | cons k calls ih => exact ih (c.answer k).2

theorem HasRead.exists_answer {c : Cursor} {read : List Char} (h : c.HasRead read) (k : Call) :
    ∃ read', (c.answer k).2.source = c.source ∧ (c.answer k).2.HasRead read' := by
  obtain ⟨more, rest, hrest, hpass⟩ := exists_answer_snd_eq c k
  rw [hpass]
  exact ⟨read ++ more, rfl, h.pass hrest⟩

/-- Every step keeps all cursors of a row in the text, each behind what it has read. -/
theorem exists_hasRead_of_mem_step {text : List Char} {row : List Cursor}
    (h : ∀ c ∈ row, c.source = text ∧ ∃ read, c.HasRead read) (s : Step) :
    ∀ c ∈ step row s, c.source = text ∧ ∃ read, c.HasRead read := by
  intro c hc
  rcases mem_step hc with hc | ⟨d, hd, k, rfl⟩
  · exact h c hc
  · obtain ⟨hsource, read, hread⟩ := h d hd
    obtain ⟨read', hsame, hread'⟩ := hread.exists_answer k
    exact ⟨hsame.trans hsource, read', hread'⟩

theorem exists_hasRead_of_mem_foldl {text : List Char} {row : List Cursor}
    (h : ∀ c ∈ row, c.source = text ∧ ∃ read, c.HasRead read) (steps : List Step) :
    ∀ c ∈ steps.foldl step row, c.source = text ∧ ∃ read, c.HasRead read := by
  induction steps generalizing row with
  | nil => exact h
  | cons s steps ih => exact ih (exists_hasRead_of_mem_step h s)

/-- A cursor behind a text that was read is the one that passes this text from the start. -/
theorem HasRead.eq_pass {c : Cursor} {read : List Char} (h : c.HasRead read) :
    c = (ofText c.source).pass read := by
  have hrest : ((ofText c.source).pass read).rest = c.rest := rest_pass h.source_eq
  obtain ⟨source, rest, line⟩ := c
  obtain rfl : line = 1 + Text.lineFeeds read := h.line_eq
  exact congrArg (fun rest => Cursor.mk source rest _) hrest.symm

/-- A cursor can be reached exactly if it stands in its text behind what it has read. -/
theorem reached_iff {text : List Char} {c : Cursor} :
    Reached text c ↔ c.source = text ∧ ∃ read, c.HasRead read := by
  constructor
  · rintro ⟨steps, hc⟩
    refine exists_hasRead_of_mem_foldl (fun d hd => ?_) steps c hc
    obtain rfl := List.mem_singleton.1 hd
    exact ⟨rfl, [], hasRead_ofText text⟩
  · rintro ⟨rfl, read, h⟩
    refine ⟨(List.replicate read.length Call.next).map (Step.call 0), ?_⟩
    have hnext := answers_replicate_next (c := ofText c.source) h.source_eq
    rw [afterSteps, foldl_step_call, hnext, ← h.eq_pass]
    exact List.mem_singleton_self c

/-! ### Equality -/

/-- Whether a cursor stands between two parts of its source, and knows it: how far that is, on which
line, and what comes next. -/
structure StandsBetween (c : Cursor) (read left : List Char) : Prop where
  source_eq : c.source = read ++ left
  offset_eq : c.offset = (String.ofList read).utf8ByteSize
  isValid : String.Pos.Raw.IsValid (String.ofList c.source) ⟨c.offset⟩
  line_eq : c.line = 1 + Text.lineFeeds read
  isAtEnd_iff : c.isAtEnd ↔ left = []
  peek_eq : c.answer .peek = (.character left[0]?, c)
  peekSecond_eq : c.answer .peekSecond = (.character left[1]?, c)

theorem HasRead.standsBetween {c : Cursor} {read : List Char} (h : c.HasRead read) :
    c.StandsBetween read c.rest where
  source_eq := h.source_eq
  offset_eq := by rw [h.offset_eq, Text.utf8Length_eq]
  isValid := by
    rw [String.Pos.Raw.isValid_iff_exists_append, h.source_eq, String.ofList_append, h.offset_eq,
      Text.utf8Length_eq]
    exact ⟨_, _, rfl, rfl⟩
  line_eq := h.line_eq
  isAtEnd_iff := List.isEmpty_iff
  peek_eq := by rw [answer, peek?, List.head?_eq_getElem?]
  peekSecond_eq := by rw [answer, peekSecond?, List.head?_eq_getElem?, List.getElem?_tail]

theorem beq_iff {c d : Cursor} : (c == d) = true ↔ c.source = d.source ∧ c.rest = d.rest := by
  change (c.source == d.source && c.rest == d.rest) = true ↔ _
  rw [Bool.and_eq_true, beq_iff_eq, beq_iff_eq]

/-- Behind what was read, as much is left exactly if as many bytes were read. -/
theorem HasRead.beq_iff_offset_eq {c d : Cursor} {read read' : List Char} (hc : c.HasRead read)
    (hd : d.HasRead read') : (c == d) = true ↔ c.source = d.source ∧ c.offset = d.offset := by
  rw [beq_iff]
  refine and_congr_right fun hsource => ⟨fun hrest => ?_, fun hoffset => ?_⟩
  · rw [offset, offset, hsource, hrest]
  · rw [hc.source_eq, hd.source_eq] at hsource
    rw [hc.offset_eq, hd.offset_eq] at hoffset
    exact (Text.append_inj_of_utf8Length_eq hsource hoffset).2

/-- The line follows from what was read, so the comparison need not look at it. -/
theorem HasRead.eq_of_beq {c d : Cursor} {read read' : List Char} (hc : c.HasRead read)
    (hd : d.HasRead read') (h : (c == d) = true) : c = d := by
  obtain ⟨hsource, hrest⟩ := beq_iff.1 h
  have hread : read = read' := by
    have hcut := hsource
    rw [hc.source_eq, hd.source_eq, hrest] at hcut
    exact List.append_cancel_right hcut
  rw [hc.eq_pass, hd.eq_pass, hsource, hread]

/-- A call that cannot read the next character leaves the cursor as it is. -/
theorem answer_nextIf_of_none {c : Cursor} {p : Char → Bool}
    (h : (c.answer (.nextIf p)).1 = .character none) : (c.answer (.nextIf p)).2 = c := by
  rw [answer] at h ⊢
  cases hread : c.nextIf? p with
  | none => rfl
  | some found =>
    rw [hread] at h
    cases h

theorem answer_skip_of_false {c : Cursor} {x : Char} (h : (c.answer (.skip x)).1 = .truth false) :
    (c.answer (.skip x)).2 = c := by
  rw [answer] at h ⊢
  cases hread : c.skip? x with
  | none => rfl
  | some after =>
    rw [hread] at h
    cases h

/-- A cursor that was reached stands where its text is cut, behind as many bytes as its offset says;
this is the only such cut, and the line and the next characters are those of this cut. Two cursors
that were reached compare equal exactly if their texts and their offsets are equal, and exactly if
no calls tell them apart. Then they are on the same line, though the comparison does not look at it.
A cursor that cannot read a character stays as it is. -/
theorem reached_equality {text text' : List Char} {c d : Cursor} (hc : Reached text c)
    (hd : Reached text' d) :
    (∃ read left, text = read ++ left ∧ c.StandsBetween read left ∧
      ∀ read' left', text = read' ++ left' → c.offset = (String.ofList read').utf8ByteSize →
        read' = read ∧ left' = left) ∧
    ((c == d) = true ↔ text = text' ∧ c.offset = d.offset) ∧
    ((c == d) = true ↔ ∀ calls, (c.answers calls).1 = (d.answers calls).1) ∧
    ((c == d) = true → c.line = d.line) ∧
    (∀ line, ({ c with line } == d) = (c == d)) ∧
    (∀ p, (c.answer (.nextIf p)).1 = .character none → (c.answer (.nextIf p)).2 = c) ∧
    ∀ x, (c.answer (.skip x)).1 = .truth false → (c.answer (.skip x)).2 = c := by
  obtain ⟨rfl, read, hread⟩ := reached_iff.1 hc
  obtain ⟨rfl, read', hread'⟩ := reached_iff.1 hd
  have hoffset := hread.beq_iff_offset_eq hread'
  refine ⟨⟨read, c.rest, hread.source_eq, hread.standsBetween, fun xs ys hcut hsize => ?_⟩,
    hoffset, ⟨fun h calls => ?_, fun h => ?_⟩, fun h => ?_, fun line => rfl,
    fun p => answer_nextIf_of_none, fun x => answer_skip_of_false⟩
  · rw [hread.offset_eq, ← Text.utf8Length_eq] at hsize
    exact Text.append_inj_of_utf8Length_eq (hcut.symm.trans hread.source_eq) hsize.symm
  · rw [hread.eq_of_beq hread' h]
  · -- one call is enough: each of the two is asked for its equality with the second
    have hasked : Answer.truth (c == d) = .truth (d == d) :=
      List.head_eq_of_cons_eq (h [.isEqualTo d])
    rw [Answer.truth.inj hasked]
    exact beq_iff.2 ⟨rfl, rfl⟩
  · rw [hread.eq_of_beq hread' h]

/-- A cursor that read two characters one by one, and a copy that read the second as a line feed. -/
theorem reached_equality_copied :
    let text := ['é', '\n']
    let c : Cursor := ⟨text, [], 2⟩
    let steps := [.call 0 .next, .copy 0, .call 0 .next, .call 1 (.advanceWhile (· == '\n'))]
    afterSteps text steps = [c, c] ∧ Reached text c ∧ c.offset = 3 ∧
      (∃ read left, text = read ++ left ∧ c.StandsBetween read left) ∧
      ¬(c == ofText text) = true := by
  intro text c steps
  have hsteps : afterSteps text steps = [c, c] := rfl
  have hc : Reached text c := ⟨steps, hsteps ▸ List.mem_cons_self⟩
  have hstart : Reached text (ofText text) := ⟨[], List.mem_singleton_self _⟩
  obtain ⟨⟨read, left, hcut, hstands, -⟩, hoffset, -⟩ := reached_equality hc hstart
  have hdiffer : c.offset ≠ (ofText text).offset := by decide
  exact ⟨hsteps, hc, rfl, ⟨read, left, hcut, hstands⟩, fun h => hdiffer (hoffset.1 h).2⟩

end LoxCalc.Cursor
