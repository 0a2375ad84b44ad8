import LoxCalc.Proofs.Text.Reached

/-!
# Texts between cursors

Of two cursors of one text, one has read what the other has and perhaps some more, and that is the
slice between them. Main statement: `slice_reached`, a slice fails for other texts and for a wrong
order only, never inside a character, and adjacent slices put together are the slice over both.
-/

namespace LoxCalc.Cursor

/-- The text that a cursor has read. -/
def consumed (c : Cursor) : List Char := c.source.take (c.source.length - c.rest.length)

section Between

variable {a b : Cursor} {read read' text : List Char}

theorem HasRead.consumed_eq (h : a.HasRead read) : a.consumed = read := by
  have hlength := congrArg List.length h.source_eq
  rw [List.length_append] at hlength
  rw [consumed, hlength, Nat.add_sub_cancel, h.source_eq, List.take_left]

/-- The cursor that stands further on has read what the other has. -/
theorem HasRead.exists_eq_append (ha : a.HasRead read) (hb : b.HasRead read')
    (hsource : a.source = b.source) (hle : a.offset ≤ b.offset) :
    ∃ text, read' = read ++ text := by
  have hread : read <+: a.source := ⟨a.rest, ha.source_eq.symm⟩
  have hread' : read' <+: a.source := ⟨b.rest, (hsource.trans hb.source_eq).symm⟩
  rw [ha.offset_eq, hb.offset_eq] at hle
  rcases List.prefix_or_prefix_of_prefix hread hread' with ⟨text, heq⟩ | ⟨text, rfl⟩
  · exact ⟨text, heq.symm⟩
  · -- it cannot have read less, for what the other has read more would have no bytes
    cases text with
    | nil => exact ⟨[], by rw [List.append_nil, List.append_nil]⟩
    | cons x text =>
      have hpos := x.utf8Size_pos
      rw [Text.utf8Length_append, Text.utf8Length_cons] at hle
      omega

theorem slice_of_source_ne (h : a.source ≠ b.source) : a.slice b = .error .sourcesDiffer :=
  if_pos h

theorem slice_of_offset_lt (hsource : a.source = b.source) (h : b.offset < a.offset) :
    a.slice b = .error .endBeforeStart := by
  rw [slice, if_neg (not_not_intro hsource), if_pos h]

/-- The three ways in which cursors can lie to each other, and what is between them. -/
theorem HasRead.slice_cases (ha : a.HasRead read) (hb : b.HasRead read') :
    (a.source ≠ b.source ∧ a.slice b = .error .sourcesDiffer) ∨
    (a.source = b.source ∧ b.offset < a.offset ∧ a.slice b = .error .endBeforeStart) ∨
    ∃ text, a.source = b.source ∧ a.offset ≤ b.offset ∧ read' = read ++ text ∧
      a.slice b = .ok text := by
  by_cases hsource : a.source = b.source
  · rcases Nat.lt_or_ge b.offset a.offset with hlt | hle
    · exact .inr (.inl ⟨hsource, hlt, slice_of_offset_lt hsource hlt⟩)
    · obtain ⟨text, rfl⟩ := ha.exists_eq_append hb hsource hle
      exact .inr (.inr ⟨text, hsource, hle, rfl, slice_eq_ok ha hb hsource⟩)
  · exact .inl ⟨hsource, slice_of_source_ne hsource⟩

/-- What a cursor has read more has the bytes and the line feeds by which offset and line grow. -/
theorem HasRead.offset_and_line_of_append (ha : a.HasRead read) (hb : b.HasRead (read ++ text)) :
    a.offset + (String.ofList text).utf8ByteSize = b.offset ∧
      a.line + Text.lineFeeds text = b.line := by
  constructor
  · rw [ha.offset_eq, hb.offset_eq, Text.utf8Length_append, ← Text.utf8Length_eq]
  · rw [ha.line_eq, hb.line_eq, Text.lineFeeds_append, Nat.add_assoc]

end Between

/-- Slices of cursors that were reached. A slice is refused, for the first cause, exactly if the
texts differ, and for the second exactly if they are the same and the end stands before the start;
no cut falls inside a character. Otherwise the slice is the one text that the end has read more than
the start, with as many bytes as the offsets differ by and as many line feeds as the lines do. Of
three cursors in order, the slices between neighbours make up the slice between the outer two. -/
theorem slice_reached {text text' : List Char} {a b : Cursor} (ha : Reached text a)
    (hb : Reached text' b) :
    (a.slice b = .error .sourcesDiffer ↔ text ≠ text') ∧
    (a.slice b = .error .endBeforeStart ↔ text = text' ∧ b.offset < a.offset) ∧
    a.slice b ≠ .error .insideCharacter ∧
    (text = text' → a.offset ≤ b.offset → ∃ t, a.slice b = .ok t ∧
      b.consumed = a.consumed ++ t ∧ (∀ t', b.consumed = a.consumed ++ t' → t' = t) ∧
      a.offset + (String.ofList t).utf8ByteSize = b.offset ∧
      a.line + Text.lineFeeds t = b.line) ∧
    ∀ c, Reached text c → text = text' → a.offset ≤ b.offset → b.offset ≤ c.offset →
      ∃ s t, a.slice b = .ok s ∧ b.slice c = .ok t ∧ a.slice c = .ok (s ++ t) := by
  obtain ⟨rfl, reada, ha⟩ := reached_iff.1 ha
  obtain ⟨rfl, readb, hb⟩ := reached_iff.1 hb
  refine ⟨?_, ?_, ?_, fun hsource hle => ?_, fun c hc hsource hab hbc => ?_⟩
  · rcases ha.slice_cases hb with ⟨hne, h⟩ | ⟨heq, -, h⟩ | ⟨t, heq, -, -, h⟩
    · simp [h, hne]
    · simp [h, heq]
    · simp [h, heq]
  · rcases ha.slice_cases hb with ⟨hne, h⟩ | ⟨heq, hlt, h⟩ | ⟨t, heq, hle, -, h⟩
    · simp [h, hne]
    · simp [h, heq, hlt]
    · simp [h, hle]
  · rcases ha.slice_cases hb with ⟨-, h⟩ | ⟨-, -, h⟩ | ⟨t, -, -, -, h⟩ <;> simp [h]
  · obtain ⟨t, rfl⟩ := ha.exists_eq_append hb hsource hle
    obtain ⟨hoffset, hline⟩ := ha.offset_and_line_of_append hb
    rw [ha.consumed_eq, hb.consumed_eq]
    exact ⟨t, slice_eq_ok ha hb hsource, rfl, fun t' h => (List.append_cancel_left h).symm,
      hoffset, hline⟩
  · obtain ⟨hsource', readc, hc⟩ := reached_iff.1 hc
    have hbc_source : b.source = c.source := hsource.symm.trans hsource'.symm
    obtain ⟨s, rfl⟩ := ha.exists_eq_append hb hsource hab
    obtain ⟨t, rfl⟩ := hb.exists_eq_append hc hbc_source hbc
    refine ⟨s, t, slice_eq_ok ha hb hsource, slice_eq_ok hb hc hbc_source, ?_⟩
    exact slice_eq_ok ha (List.append_assoc reada s t ▸ hc) hsource'.symm

/-- Two characters of two and three bytes are cut out whole, and not the other way round. -/
theorem slice_reached_multibyte :
    let text := ['é', '€', 'x']
    let a := ofText text
    let b : Cursor := ⟨text, ['x'], 1⟩
    Reached text a ∧ Reached text b ∧ b.offset = 5 ∧ a.slice b = .ok ['é', '€'] ∧
      b.slice a = .error .endBeforeStart := by
  intro text a b
  have ha : Reached text a := reached_iff.2 ⟨rfl, [], hasRead_ofText text⟩
  have hb : Reached text b := reached_iff.2 ⟨rfl, ['é', '€'], rfl, rfl⟩
  obtain ⟨-, -, -, hbetween, -⟩ := slice_reached ha hb
  obtain ⟨-, hbackwards, -⟩ := slice_reached hb ha
  obtain ⟨t, hslice, -, hunique, -⟩ := hbetween rfl (by decide)
  refine ⟨ha, hb, rfl, ?_, hbackwards.2 ⟨rfl, by decide⟩⟩
  rw [hslice, hunique ['é', '€'] rfl]

end LoxCalc.Cursor
