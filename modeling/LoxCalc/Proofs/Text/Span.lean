import LoxCalc.Proofs.Text.Reached

/-!
# Spans of characters

A cursor that moves on while characters of a class come next reads them one by one and counts them.
Main statement: `advanceWhile_longest`, it reads the longest text of such characters, and no more.
-/

namespace LoxCalc.Cursor

/-- Reads the next character as long as it satisfies `p`, and counts on from a number. -/
def advanceFrom (p : Char → Bool) (count : Nat) (c : Cursor) : Nat × Cursor :=
  match _h : c.nextIf? p with
  | none => (count, c)
  | some (_, after) => advanceFrom p (count + 1) after
  termination_by c.rest.length
  decreasing_by
    rw [(rest_of_nextIf? _h).1, List.length_cons]
    exact Nat.lt_succ_self _

section Advance

variable {c : Cursor} {p q : Char → Bool} {read more rest : List Char}

theorem advanceFrom_of_none (h : c.nextIf? p = none) (count : Nat) :
    c.advanceFrom p count = (count, c) := by
  rw [advanceFrom]
  split
  next => rfl
  next hsome => cases h.symm.trans hsome

theorem advanceFrom_of_some {x : Char} {after : Cursor} (h : c.nextIf? p = some (x, after))
    (count : Nat) : c.advanceFrom p count = after.advanceFrom p (count + 1) := by
  rw [advanceFrom]
  split
  next hnone => cases h.symm.trans hnone
  next hsome =>
    obtain ⟨-, rfl⟩ := Prod.mk.inj (Option.some.inj (h.symm.trans hsome))
    rfl

/-- The loop reads a text of characters that satisfy `p`, up to one that does not. -/
theorem advanceFrom_eq (h : c.rest = read ++ rest) (hread : ∀ x ∈ read, p x)
    (hrest : ∀ x ∈ rest.head?, ¬p x) (count : Nat) :
    c.advanceFrom p count = (count + read.length, c.pass read) := by
  induction read generalizing c count with
  | nil =>
    have hnone : c.nextIf? p = none := nextIf?_eq_none (by rwa [h])
    exact advanceFrom_of_none hnone count
  | cons x read ih =>
    obtain ⟨hx, hread⟩ := List.forall_mem_cons.1 hread
    have hbehind : (c.pass [x]).rest = read ++ rest := rest_pass h
    rw [advanceFrom_of_some (nextIf?_eq h hx), ih hbehind hread, pass_append, List.length_cons,
      Nat.add_assoc, Nat.add_comm 1, List.singleton_append]

theorem advanceWhile_eq (h : c.rest = read ++ rest) (hread : ∀ x ∈ read, p x)
    (hrest : ∀ x ∈ rest.head?, ¬p x) : c.advanceWhile p = (read.length, c.pass read) := by
  rw [advanceWhile, span_eq h hread hrest]

/-- To count characters in one go is to read them in a loop. -/
theorem advanceWhile_eq_advanceFrom (p : Char → Bool) (c : Cursor) :
    c.advanceWhile p = c.advanceFrom p 0 := by
  obtain ⟨read, rest, h, hread, hrest⟩ := exists_span p c.rest
  rw [advanceWhile_eq h hread hrest, advanceFrom_eq h hread hrest, Nat.zero_add]

/-- A text of characters that satisfy `p` at the front is part of the one that ends where a
character does not. -/
theorem prefix_of_forall_mem {text : List Char} (hrest : ∀ x ∈ rest.head?, ¬p x)
    (h : text <+: read ++ rest) (htext : ∀ x ∈ text, p x) : text <+: read := by
  rcases List.prefix_or_prefix_of_prefix h (List.prefix_append read rest) with hle | ⟨more, rfl⟩
  · exact hle
  · cases more with
    | nil => simp
    | cons x more =>
      -- the character behind `read` would satisfy `p`
      obtain ⟨behind, rfl⟩ := (List.prefix_append_right_inj read).1 h
      exact absurd (htext x (by simp)) (hrest x rfl)

/-- Nothing is left to read behind a span of the same class. -/
theorem advanceWhile_of_head? (h : ∀ x ∈ c.rest.head?, ¬p x) : c.advanceWhile p = (0, c) :=
  advanceWhile_eq (List.nil_append c.rest).symm (by simp) h

end Advance

/-- A cursor reads the longest text of characters that satisfy `p`, which is what the loop that
reads them one by one does. The count is the number of these characters, the text is the slice
between the cursors before and after, and the line grows by its line feeds. To do the same again
reads nothing. To go on with a wider class reads what that class alone reads. -/
theorem advanceWhile_longest {text : List Char} {c : Cursor} (hc : Reached text c)
    (p : Char → Bool) :
    let after := (c.advanceWhile p).2
    c.advanceWhile p = c.advanceFrom p 0 ∧
    (∃ w, c.rest = w ++ after.rest ∧ (∀ x ∈ w, p x) ∧ (∀ x ∈ after.rest.head?, ¬p x) ∧
      (∀ w', w' <+: c.rest → (∀ x ∈ w', p x) → w' <+: w) ∧
      (c.advanceWhile p).1 = w.length ∧ c.slice after = .ok w ∧
      after.line = c.line + Text.lineFeeds w) ∧
    after.advanceWhile p = (0, after) ∧
    ∀ q : Char → Bool, (∀ x, p x → q x) →
      (after.advanceWhile q).2 = (c.advanceWhile q).2 ∧
      (c.advanceWhile p).1 + (after.advanceWhile q).1 = (c.advanceWhile q).1 := by
  intro after
  obtain ⟨rfl, read, hread⟩ := reached_iff.1 hc
  obtain ⟨w, rest, hrest, hw, hends⟩ := exists_span p c.rest
  have hspan : c.advanceWhile p = (w.length, c.pass w) := advanceWhile_eq hrest hw hends
  have hafter : after = c.pass w := congrArg Prod.snd hspan
  have hleft : after.rest = rest := hafter ▸ rest_pass hrest
  refine ⟨advanceWhile_eq_advanceFrom p c, ⟨w, by rw [hleft, hrest], hw, by rwa [hleft], ?_, ?_, ?_,
    by rw [hafter, line_pass]⟩, ?_, fun q hpq => ?_⟩
  · intro w' hprefix hw'
    exact prefix_of_forall_mem hends (hrest ▸ hprefix) hw'
  · rw [hspan]
  · rw [hafter]
    exact slice_eq_ok hread (hread.pass hrest) rfl
  · exact advanceWhile_of_head? (by rwa [hleft])
  · obtain ⟨v, last, hv_rest, hv, hv_ends⟩ := exists_span q after.rest
    have hwhole : c.rest = (w ++ v) ++ last := by
      rw [hrest, ← hleft, hv_rest, List.append_assoc]
    have hall : ∀ x ∈ w ++ v, q x := by
      intro x hx
      rcases List.mem_append.1 hx with hx | hx
      · exact hpq x (hw x hx)
      · exact hv x hx
    rw [advanceWhile_eq hv_rest hv hv_ends, advanceWhile_eq hwhole hall hv_ends, hspan, hafter,
      pass_append, List.length_append]
    exact ⟨rfl, rfl⟩

/-- Two characters of three bytes and one line feed, before one that ends the span. -/
theorem advanceWhile_longest_lineFeed :
    let text := ['é', '\n', 'x']
    let p : Char → Bool := (· != 'x')
    Reached text (ofText text) ∧ (ofText text).advanceWhile p = (2, ⟨text, ['x'], 2⟩) ∧
      (ofText text).advanceFrom p 0 = (2, ⟨text, ['x'], 2⟩) ∧
      (⟨text, ['x'], 2⟩ : Cursor).advanceWhile p = (0, ⟨text, ['x'], 2⟩) := by
  intro text p
  have hstart : Reached text (ofText text) := ⟨[], List.mem_singleton_self _⟩
  obtain ⟨hloop, -, hagain, -⟩ := advanceWhile_longest hstart p
  have hspan : (ofText text).advanceWhile p = (2, ⟨text, ['x'], 2⟩) := rfl
  exact ⟨hstart, hspan, hloop.symm.trans hspan, hagain⟩

end LoxCalc.Cursor
