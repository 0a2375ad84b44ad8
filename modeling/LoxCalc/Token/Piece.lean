import LoxCalc.Decimal.Nearest
import LoxCalc.Text.Cursor
import LoxCalc.Token.Basic

/-!
# Pieces of a source

A source is cut into pieces from left to right: tokens, blanks, comments, and what cannot be read.
`Cursor.piece?` reads the piece at a cursor. It takes the longest token or comment that starts
there. Main statement: `text_piece?`, the text of the piece is exactly what the cursor passes, so
that no character is lost or read twice.
-/

namespace LoxCalc

/-- A piece of a source. -/
inductive Piece
  | token (data : Token.Data) (text : List Char)
  | blank (c : Char)
  | comment (text : List Char)
  | stray (c : Char)
  | openString (text : List Char)

namespace Piece

/-- The text of a piece. -/
def text : Piece → List Char
  | token _ text => text
  | blank c => [c]
  | comment text => text
  | stray c => [c]
  | openString text => text

/-- The characters that separate tokens. -/
def isBlank (c : Char) : Bool := c == ' ' || c == '\r' || c == '\t' || c == '\n'

/-- The characters that a word starts with: ASCII letters and the underscore. -/
def startsWord (c : Char) : Bool := c.isAlpha || c == '_'

/-- The characters that a word goes on with. -/
def continuesWord (c : Char) : Bool := startsWord c || c.isDigit

theorem isBlank_iff {c : Char} : isBlank c ↔ c = ' ' ∨ c = '\r' ∨ c = '\t' ∨ c = '\n' := by
  simp [isBlank, or_assoc]

theorem startsWord_iff {c : Char} :
    startsWord c ↔ 'a' ≤ c ∧ c ≤ 'z' ∨ 'A' ≤ c ∧ c ≤ 'Z' ∨ c = '_' := by
  have hupper : c.isUpper ↔ 'A' ≤ c ∧ c ≤ 'Z' := decide_eq_true_iff
  have hlower : c.isLower ↔ 'a' ≤ c ∧ c ≤ 'z' :=
    Bool.and_eq_true_iff.trans (and_congr decide_eq_true_iff decide_eq_true_iff)
  change (c.isUpper || c.isLower || c == '_') = true ↔ _
  rw [Bool.or_eq_true, Bool.or_eq_true, hupper, hlower, beq_iff_eq,
    or_comm (a := 'A' ≤ c ∧ c ≤ 'Z'), or_assoc]

theorem isDigit_iff {c : Char} : c.isDigit ↔ '0' ≤ c ∧ c ≤ '9' :=
  Bool.and_eq_true_iff.trans (and_congr decide_eq_true_iff decide_eq_true_iff)

theorem continuesWord_iff {c : Char} : continuesWord c ↔ startsWord c ∨ '0' ≤ c ∧ c ≤ '9' := by
  rw [continuesWord, Bool.or_eq_true, isDigit_iff]

/-- What a word means: a reserved word, or a name. -/
def word (text : List Char) : Token.Data :=
  match Keyword.ofText? (String.ofList text) with
  | some k => .keyword k
  | none => .identifier

/-- A word means the reserved word that it spells. -/
theorem word_eq_keyword_iff {text : List Char} {k : Keyword} :
    word text = .keyword k ↔ String.ofList text = k.text := by
  rw [← Keyword.ofText?_eq_some_iff, word]
  split <;> simp_all

end Piece

namespace Cursor

/-- A comment whose first slash has been read: up to the end of the line, which stays unread. -/
def comment (after : Cursor) : Piece × Cursor :=
  let (text, after) := after.span (· != '\n')
  (.comment ('/' :: text), after)

/-- A string whose opening quote has been read: up to the next quote, over line ends too. -/
def quoted (after : Cursor) : Piece × Cursor :=
  let (text, closing) := after.span (· != '"')
  match closing.next? with
  | some (quote, after) =>
    (.token (.string (String.ofList text)) ('"' :: (text ++ [quote])), after)
  | none => (.openString ('"' :: text), closing)

/-- A point and the digits behind it, if there are any. -/
def fraction? (c : Cursor) : Option (List Char × Cursor) := do
  let (digits, after) := (← c.skip? '.').span Char.isDigit
  if digits.isEmpty then none else some (digits, after)

/-- A number whose first digit has been read. -/
def number (first : Char) (after : Cursor) : Piece × Cursor :=
  let (digits, after) := after.span Char.isDigit
  match after.fraction? with
  | some (fraction, after) =>
    (.token (.number (Decimal.read (first :: digits) fraction))
      (first :: (digits ++ '.' :: fraction)), after)
  | none => (.token (.number (Decimal.read (first :: digits) [])) (first :: digits), after)

/-- A word whose first letter has been read. -/
def word (first : Char) (after : Cursor) : Piece × Cursor :=
  let (letters, after) := after.span Piece.continuesWord
  (.token (Piece.word (first :: letters)) (first :: letters), after)

/-- A symbol whose first character has been read. -/
def symbol (s : Symbol) (first : Char) (after : Cursor) : Piece × Cursor :=
  match s.withEqual? with
  | none => (.token (.symbol s) [first], after)
  | some longer =>
    match after.skip? '=' with
    | some after => (.token (.symbol longer) [first, '='], after)
    | none => (.token (.symbol s) [first], after)

/-- The piece whose first character has been read. -/
def pieceFrom (first : Char) (after : Cursor) : Piece × Cursor :=
  if Piece.isBlank first then (.blank first, after)
  else if first = '"' then after.quoted
  else if first.isDigit then after.number first
  else if Piece.startsWord first then after.word first
  else if first = '/' ∧ after.peek? = some '/' then after.comment
  else
    match Symbol.ofChar? first with
    | some s => after.symbol s first
    | none => (.stray first, after)

/-- The piece at a cursor, and the cursor behind it; nothing at the end of the text. -/
def piece? (c : Cursor) : Option (Piece × Cursor) :=
  c.next?.map fun (first, after) => after.pieceFrom first

/-! ### The text of a piece is what the cursor passes -/

theorem text_comment (c : Cursor) : (c.comment.1).text ++ (c.comment.2).rest = '/' :: c.rest := by
  simp [comment, Piece.text]

theorem text_quoted (c : Cursor) : (c.quoted.1).text ++ (c.quoted.2).rest = '"' :: c.rest := by
  have hcut : c.rest.takeWhile (· != '"') ++ c.rest.dropWhile (· != '"') = c.rest :=
    List.takeWhile_append_dropWhile
  unfold quoted
  dsimp only
  split
  next quote after h =>
    have := rest_of_next? h
    simp only [span_rest] at this
    simp only [Piece.text, span_fst]
    rw [this] at hcut
    simpa using hcut
  next => simp [Piece.text]

theorem rest_of_fraction? {c c' : Cursor} {digits : List Char}
    (h : c.fraction? = some (digits, c')) : c.rest = '.' :: (digits ++ c'.rest) := by
  simp only [fraction?, Option.bind_eq_bind, Option.bind_eq_some_iff] at h
  obtain ⟨d, hd, h⟩ := h
  split at h
  · simp at h
  · obtain ⟨rfl, rfl⟩ := by simpa using h
    simp [rest_of_skip? hd]

theorem text_number (first : Char) (c : Cursor) :
    ((c.number first).1).text ++ ((c.number first).2).rest = first :: c.rest := by
  have hcut : c.rest.takeWhile Char.isDigit ++ c.rest.dropWhile Char.isDigit = c.rest :=
    List.takeWhile_append_dropWhile
  unfold number
  dsimp only
  split
  next fraction after h =>
    have := rest_of_fraction? h
    simp only [span_rest] at this
    rw [this] at hcut
    simpa [Piece.text] using hcut
  next => simp [Piece.text]

theorem text_word (first : Char) (c : Cursor) :
    ((c.word first).1).text ++ ((c.word first).2).rest = first :: c.rest := by
  simp [word, Piece.text]

theorem text_symbol (s : Symbol) (first : Char) (c : Cursor) :
    ((c.symbol s first).1).text ++ ((c.symbol s first).2).rest = first :: c.rest := by
  unfold symbol
  split
  · simp [Piece.text]
  · split
    next h => simp [Piece.text, rest_of_skip? h]
    next => simp [Piece.text]

theorem text_pieceFrom (first : Char) (c : Cursor) :
    ((c.pieceFrom first).1).text ++ ((c.pieceFrom first).2).rest = first :: c.rest := by
  unfold pieceFrom
  split
  · simp [Piece.text]
  split
  next h => rw [h, text_quoted]
  split
  · exact text_number first c
  split
  · exact text_word first c
  split
  next h => rw [h.1, text_comment]
  split
  · exact text_symbol _ first c
  · simp [Piece.text]

/-- The text of a piece is what lies between the cursors around it. -/
theorem text_piece? {c c' : Cursor} {p : Piece} (h : c.piece? = some (p, c')) :
    c.rest = p.text ++ c'.rest := by
  simp only [piece?, Option.map_eq_some_iff, Prod.exists] at h
  obtain ⟨first, after, hn, hp⟩ := h
  rw [rest_of_next? hn, ← text_pieceFrom first after, hp]

theorem text_pieceFrom_ne_nil (first : Char) (c : Cursor) :
    ((c.pieceFrom first).1).text ≠ [] := by
  unfold pieceFrom quoted number word symbol comment
  dsimp only
  repeat' split
  all_goals simp [Piece.text]

/-- Every piece passes at least one character. -/
theorem rest_piece?_lt {c c' : Cursor} {p : Piece} (h : c.piece? = some (p, c')) :
    c'.rest.length < c.rest.length := by
  have htext := text_piece? h
  simp only [piece?, Option.map_eq_some_iff, Prod.exists] at h
  obtain ⟨first, after, -, hp⟩ := h
  have := List.length_pos_iff.2 (text_pieceFrom_ne_nil first after)
  simp only [hp] at this
  rw [htext, List.length_append]
  omega

end Cursor

end LoxCalc
