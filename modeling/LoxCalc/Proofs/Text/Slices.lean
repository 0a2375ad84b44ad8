import LoxCalc.Text.Cursor

/-!
# Slices of a source

A cursor stands between the text that it has read and the text that is left, and all that it does is
to pass some text. Cutting a source by bytes at such places never falls inside a character. Main
statement: `slice_eq_ok`, between two cursors of one source lies the text that the later one has
read more.
-/

namespace LoxCalc

namespace Text

@[simp] theorem utf8Length_nil : utf8Length [] = 0 := rfl

@[simp] theorem utf8Length_cons (c : Char) (text : List Char) :
    utf8Length (c :: text) = c.utf8Size + utf8Length text := rfl

@[simp] theorem utf8Length_append (xs ys : List Char) :
    utf8Length (xs ++ ys) = utf8Length xs + utf8Length ys := by
  induction xs with
  | nil => simp
  | cons c xs ih => rw [List.cons_append, utf8Length_cons, utf8Length_cons, ih, Nat.add_assoc]

theorem utf8Length_eq (text : List Char) :
    utf8Length text = (String.ofList text).utf8ByteSize := by
  induction text with
  | nil => rfl
  | cons c text ih =>
    rw [utf8Length_cons, ih, String.ofList_cons, String.utf8ByteSize_append,
      String.utf8ByteSize_singleton]

theorem utf8Length_pos {text : List Char} (h : text ≠ []) : 0 < utf8Length text := by
  obtain ⟨c, text, rfl⟩ := List.exists_cons_of_ne_nil h
  exact Nat.add_pos_left c.utf8Size_pos _

/-- A text can be cut behind each of its beginnings. -/
theorem splitAtByte?_append (xs ys : List Char) :
    splitAtByte? (utf8Length xs) (xs ++ ys) = some (xs, ys) := by
  induction xs with
  | nil => rw [utf8Length_nil, List.nil_append, splitAtByte?]
  | cons c xs ih =>
    obtain ⟨n, hn⟩ : ∃ n, c.utf8Size + utf8Length xs = n + 1 :=
      Nat.exists_eq_add_one.2 (Nat.add_pos_left c.utf8Size_pos _)
    have hrest : n + 1 - c.utf8Size = utf8Length xs := by omega
    rw [utf8Length_cons, hn, List.cons_append, splitAtByte?, if_pos (by omega), hrest, ih]
    rfl

/-- Two cuts of a text behind as many bytes are one cut. -/
theorem append_inj_of_utf8Length_eq {xs xs' ys ys' : List Char} (h : xs ++ ys = xs' ++ ys')
    (hlength : utf8Length xs = utf8Length xs') : xs = xs' ∧ ys = ys' := by
  have hcut := splitAtByte?_append xs ys
  rw [h, hlength, splitAtByte?_append xs' ys'] at hcut
  obtain ⟨rfl, rfl⟩ := Prod.mk.inj (Option.some.inj hcut)
  exact ⟨rfl, rfl⟩

theorem betweenBytes?_append (before middle after : List Char) :
    betweenBytes? (utf8Length before) (utf8Length (before ++ middle))
      (before ++ (middle ++ after)) = some middle := by
  simp [betweenBytes?, splitAtByte?_append]

end Text

namespace Cursor

/-! ### Passing a text -/

/-- The cursor behind a text that comes next. -/
def pass (c : Cursor) (text : List Char) : Cursor :=
  { c with rest := c.rest.drop text.length, line := c.line + Text.lineFeeds text }

section Pass

variable {c : Cursor} {x : Char} {p : Char → Bool} {read rest : List Char}

@[simp] theorem line_pass (c : Cursor) (text : List Char) :
    (c.pass text).line = c.line + Text.lineFeeds text := rfl

theorem rest_pass (h : c.rest = read ++ rest) : (c.pass read).rest = rest := by
  simp [pass, h]

theorem pass_append (c : Cursor) (xs ys : List Char) :
    (c.pass xs).pass ys = c.pass (xs ++ ys) := by
  simp [pass, Text.lineFeeds, Nat.add_assoc]

theorem next?_eq (h : c.rest = x :: rest) : c.next? = some (x, c.pass [x]) := by
  unfold next?
  rw [h]
  simp [pass, h]

theorem next?_eq_none (h : c.rest = []) : c.next? = none := by
  rw [next?, h]

theorem nextIf?_eq (h : c.rest = x :: rest) (hx : p x) : c.nextIf? p = some (x, c.pass [x]) := by
  rw [nextIf?, next?_eq h]
  exact if_pos hx

theorem nextIf?_eq_none (h : ∀ y ∈ c.rest.head?, ¬p y) : c.nextIf? p = none := by
  cases hrest : c.rest with
  | nil => rw [nextIf?, next?_eq_none hrest, Option.filter_none]
  | cons y rest =>
    rw [nextIf?, next?_eq hrest]
    exact if_neg (h y (by simp [hrest]))

theorem skip?_eq (h : c.rest = x :: rest) : c.skip? x = some (c.pass [x]) := by
  have hread : c.nextIf? (· == x) = some (x, c.pass [x]) := nextIf?_eq h (beq_self_eq_true x)
  rw [skip?, hread, Option.map_some]

theorem skip?_eq_none (h : ∀ y ∈ c.rest.head?, y ≠ x) : c.skip? x = none := by
  rw [skip?, nextIf?_eq_none (by simpa using h), Option.map_none]

theorem span_eq (h : c.rest = read ++ rest) (hread : ∀ y ∈ read, p y)
    (hrest : ∀ y ∈ rest.head?, ¬p y) : c.span p = (read, c.pass read) := by
  have htake : c.rest.takeWhile p = read := by
    rw [h, List.takeWhile_append_of_pos hread]
    cases rest with
    | nil => simp
    | cons y rest => simp [hrest y rfl]
  have hdrop : c.rest.dropWhile p = c.rest.drop read.length := by
    rw [h, List.dropWhile_append_of_pos hread, List.drop_left]
    cases rest with
    | nil => rfl
    | cons y rest => simp [hrest y rfl]
  simp [span, pass, htake, hdrop]

/-- A text is cut where characters of a class end. -/
theorem exists_span (p : Char → Bool) (text : List Char) : ∃ read rest, text = read ++ rest ∧
    (∀ y ∈ read, p y) ∧ ∀ y ∈ rest.head?, ¬p y := by
  induction text with
  | nil => exact ⟨[], [], rfl, by simp, by simp⟩
  | cons x text ih =>
    by_cases hx : p x
    · obtain ⟨read, rest, rfl, hread, hrest⟩ := ih
      exact ⟨x :: read, rest, rfl, List.forall_mem_cons.2 ⟨hx, hread⟩, hrest⟩
    · exact ⟨[], x :: text, rfl, by simp, by simpa using hx⟩

end Pass

/-! ### What has been read -/

/-- A cursor has read a text: that text and what is left are the source, and the line has grown
with each line feed. -/
structure HasRead (c : Cursor) (read : List Char) : Prop where
  source_eq : c.source = read ++ c.rest
  line_eq : c.line = 1 + Text.lineFeeds read

theorem hasRead_ofText (text : List Char) : (ofText text).HasRead [] := ⟨rfl, rfl⟩

theorem HasRead.offset_eq {c : Cursor} {read : List Char} (h : c.HasRead read) :
    c.offset = Text.utf8Length read := by
  rw [offset, h.source_eq, Text.utf8Length_append, Nat.add_sub_cancel]

theorem HasRead.pass {c : Cursor} {read text rest : List Char} (h : c.HasRead read)
    (hrest : c.rest = text ++ rest) : (c.pass text).HasRead (read ++ text) := by
  constructor
  · rw [rest_pass hrest, List.append_assoc, ← hrest]
    exact h.source_eq
  · rw [line_pass, h.line_eq, Nat.add_assoc, Text.lineFeeds_append]

/-- Between two cursors of one source lies what the later one has read more. -/
theorem slice_eq_ok {start stop : Cursor} {read text : List Char} (hstart : start.HasRead read)
    (hstop : stop.HasRead (read ++ text)) (hsource : start.source = stop.source) :
    start.slice stop = .ok text := by
  have horder : ¬stop.offset < start.offset := by
    rw [hstart.offset_eq, hstop.offset_eq, Text.utf8Length_append]
    omega
  have hcut : start.source = read ++ (text ++ stop.rest) := by
    rw [hsource, hstop.source_eq, List.append_assoc]
  rw [slice, if_neg (not_not_intro hsource), if_neg horder, hstart.offset_eq, hstop.offset_eq, hcut,
    Text.betweenBytes?_append]

end Cursor

end LoxCalc
