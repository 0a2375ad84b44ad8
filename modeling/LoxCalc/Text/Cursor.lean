/-!
# Cursors over a text

A cursor is a place in a text from which characters are read one after another. It knows the
whole text, what is left of it, and the number of the line it stands on. Reading never goes back;
an older cursor is kept by keeping its value, and `slice` returns the text between two cursors of
the same text. Offsets count bytes of the UTF-8 form, so `slice` cuts a text by bytes and says so
when a cut would fall inside a character.
-/

namespace LoxCalc

namespace Text

/-- The number of bytes of a text in UTF-8. -/
def utf8Length (text : List Char) : Nat := text.foldr (fun c n => c.utf8Size + n) 0

/-- The text before and after its first `n` bytes, unless the text is shorter or the cut would
fall inside a character. -/
def splitAtByte? : Nat → List Char → Option (List Char × List Char)
  | 0, text => some ([], text)
  | _ + 1, [] => none
  | n + 1, c :: text =>
    if c.utf8Size ≤ n + 1 then
      (splitAtByte? (n + 1 - c.utf8Size) text).map fun (before, after) => (c :: before, after)
    else none

/-- The text from byte `first` up to byte `last`. -/
def betweenBytes? (first last : Nat) (text : List Char) : Option (List Char) := do
  let (_, tail) ← splitAtByte? first text
  let (middle, _) ← splitAtByte? (last - first) tail
  pure middle

/-- A character as it stands in quotes. One that is not plain is written by its code, unless there
is a shorter way. -/
def inQuotes (isPlain : Char → Bool) : Char → List Char
  | '\x00' => ['\\', '0']
  | '\t' => ['\\', 't']
  | '\r' => ['\\', 'r']
  | '\n' => ['\\', 'n']
  | '"' => ['\\', '"']
  | '\\' => ['\\', '\\']
  | c =>
    if isPlain c then [c]
    else '\\' :: 'u' :: '\x7b' :: (Nat.toDigits 16 c.toNat ++ ['\x7d'])

/-- The number of line feeds in a text. -/
def lineFeeds (text : List Char) : Nat := text.count '\n'

theorem lineFeeds_append (front back : List Char) :
    lineFeeds (front ++ back) = lineFeeds front + lineFeeds back :=
  List.count_append

end Text

/-- A place in a text: the whole text, what has not been read, and the line reached. -/
structure Cursor where
  source : List Char
  rest : List Char
  line : Nat

/-- The ways in which two cursors enclose no text. -/
inductive SliceFault
  | sourcesDiffer
  | endBeforeStart
  | insideCharacter
  deriving DecidableEq

namespace Cursor

/-- The cursor at the start of a text, on line 1. -/
def ofText (text : List Char) : Cursor := ⟨text, text, 1⟩

/-- The number of bytes read. -/
def offset (c : Cursor) : Nat := Text.utf8Length c.source - Text.utf8Length c.rest

/-- Whether the whole text has been read. -/
def isAtEnd (c : Cursor) : Bool := c.rest.isEmpty

/-- The next character, which stays unread. -/
def peek? (c : Cursor) : Option Char := c.rest.head?

/-- The character after the next, which stays unread. -/
def peekSecond? (c : Cursor) : Option Char := c.rest.tail.head?

/-- Reads one character. The line grows when that character is a line feed. -/
def next? (c : Cursor) : Option (Char × Cursor) :=
  match c.rest with
  | [] => none
  | x :: rest => some (x, { c with rest, line := c.line + Text.lineFeeds [x] })

/-- Reads one character if it satisfies `p`. -/
def nextIf? (p : Char → Bool) (c : Cursor) : Option (Char × Cursor) :=
  c.next?.filter fun (x, _) => p x

/-- Steps over one character if it is `x`. -/
def skip? (x : Char) (c : Cursor) : Option Cursor :=
  (c.nextIf? (· == x)).map (·.2)

/-- Reads as many characters that satisfy `p` as there are. -/
def span (p : Char → Bool) (c : Cursor) : List Char × Cursor :=
  let text := c.rest.takeWhile p
  (text, { c with rest := c.rest.dropWhile p, line := c.line + Text.lineFeeds text })

/-- Steps over as many characters that satisfy `p` as there are, and counts them. -/
def advanceWhile (p : Char → Bool) (c : Cursor) : Nat × Cursor :=
  let (text, after) := c.span p
  (text.length, after)

/-- The text from one cursor to another of the same text. -/
def slice (start stop : Cursor) : Except SliceFault (List Char) :=
  if start.source ≠ stop.source then .error .sourcesDiffer
  else if stop.offset < start.offset then .error .endBeforeStart
  else
    match Text.betweenBytes? start.offset stop.offset start.source with
    | none => .error .insideCharacter
    | some text => .ok text

/-- Two cursors are equal when their texts are and as much is left to read. The line is not
looked at. -/
instance : BEq Cursor where
  beq a b := a.source == b.source && a.rest == b.rest

/-- A cursor written on one line. -/
def summary (c : Cursor) : String :=
  "Cursor \x7b line: Line(" ++ toString c.line ++ "), offset: " ++ toString c.offset ++ " \x7d"

/-- A cursor written over several lines, with its text in quotes. Plain are the characters that are
printed and stand for themselves, which is for a version of Unicode to say. -/
def details (isPlain : Char → Bool) (c : Cursor) : String :=
  "Cursor \x7b\n    line: Line(\n        " ++ toString c.line ++ ",\n    ),\n    offset: " ++
    toString c.offset ++ ",\n    source: \"" ++
    String.ofList (c.source.flatMap (Text.inQuotes isPlain)) ++ "\",\n\x7d"

/-! ### What each operation does to the text that is left -/

@[simp] theorem ofText_rest (text : List Char) : (ofText text).rest = text := rfl

@[simp] theorem span_fst (p : Char → Bool) (c : Cursor) :
    (c.span p).1 = c.rest.takeWhile p := rfl

@[simp] theorem span_rest (p : Char → Bool) (c : Cursor) :
    (c.span p).2.rest = c.rest.dropWhile p := rfl

theorem rest_of_next? {c c' : Cursor} {x : Char} (h : c.next? = some (x, c')) :
    c.rest = x :: c'.rest := by
  unfold next? at h
  split at h <;> simp_all
  obtain ⟨rfl, rfl⟩ := h
  rfl

theorem rest_of_nextIf? {p : Char → Bool} {c c' : Cursor} {x : Char}
    (h : c.nextIf? p = some (x, c')) : c.rest = x :: c'.rest ∧ p x := by
  obtain ⟨h, hp⟩ := Option.filter_eq_some_iff.1 h
  exact ⟨rest_of_next? h, by simpa using hp⟩

theorem rest_of_skip? {x : Char} {c c' : Cursor} (h : c.skip? x = some c') :
    c.rest = x :: c'.rest := by
  obtain ⟨⟨y, d⟩, hd, rfl⟩ := Option.map_eq_some_iff.1 h
  obtain ⟨hr, hy⟩ := rest_of_nextIf? hd
  rw [hr, beq_iff_eq.1 hy]

end Cursor

end LoxCalc
