import LoxCalc.Proofs.Text.Slices
import LoxCalc.Proofs.Token.Cut
import Mathlib.Data.List.TakeWhile

/-!
# Tokens cut out of a source

A token stream here reads a source with two cursors, one at the start of a token and one that moves
on. The text of a token is the slice between the two; what a string contains, which number a token
means and whether a word is reserved is found from that slice. Each of these steps can fail. Main
statement: `HasRead.nextsSliced_eq`, in a stream that stands in its source none of them does, and
every call returns what `TokenStream.next?` does.
-/

namespace LoxCalc

/-- The ways in which finding out what a slice means can fail. -/
inductive Breach
  | slice (fault : SliceFault)
  | contents (lexeme : List Char)
  | numeral (lexeme : List Char)
  deriving DecidableEq

namespace Breach

/-- The text between the first and the last byte of a text. -/
def contentsOf (lexeme : List Char) : Except Breach (List Char) :=
  let length := Text.utf8Length lexeme
  if length < 2 then .error (.contents lexeme)
  else
    match Text.betweenBytes? 1 (length - 1) lexeme with
    | none => .error (.contents lexeme)
    | some text => .ok text

/-- The number that a text means: digits, and perhaps a point with digits behind it. -/
def numeralOf (lexeme : List Char) : Except Breach Float :=
  let digits := lexeme.takeWhile Char.isDigit
  match lexeme.dropWhile Char.isDigit with
  | [] => if digits = [] then .error (.numeral lexeme) else .ok (Decimal.read digits [])
  | point :: fraction =>
    if digits ≠ [] ∧ point = '.' ∧ fraction ≠ [] ∧ fraction.all Char.isDigit then
      .ok (Decimal.read digits fraction)
    else .error (.numeral lexeme)

end Breach

namespace Cursor

open Breach

/-- The text from the start of a token to the cursor that moves on. -/
def lexeme (start current : Cursor) : Except Breach (List Char) :=
  (start.slice current).mapError .slice

/-- A string whose opening quote has been read; its contents are cut out of its slice. -/
def quotedSliced (start after : Cursor) : Except Breach (Piece × Cursor) :=
  let (text, closing) := after.span (· != '"')
  match closing.next? with
  | none => .ok (.openString ('"' :: text), closing)
  | some (_, current) => do
    let lexeme ← start.lexeme current
    let contents ← contentsOf lexeme
    .ok (.token (.string (String.ofList contents)) lexeme, current)

/-- A number whose first digit has been read, found from its slice. -/
def numberSliced (start after : Cursor) : Except Breach (Piece × Cursor) :=
  let whole := (after.advanceWhile Char.isDigit).2
  let current := (whole.fraction?.map (·.2)).getD whole
  do
    let lexeme ← start.lexeme current
    let x ← numeralOf lexeme
    .ok (.token (.number x) lexeme, current)

/-- A word whose first letter has been read, looked up by its slice. -/
def wordSliced (start after : Cursor) : Except Breach (Piece × Cursor) :=
  let current := (after.advanceWhile Piece.continuesWord).2
  do
    let lexeme ← start.lexeme current
    .ok (.token (Piece.word lexeme) lexeme, current)

/-- The piece whose first character has been read. -/
def pieceFromSliced (start : Cursor) (first : Char) (after : Cursor) :
    Except Breach (Piece × Cursor) :=
  if Piece.isBlank first then .ok (.blank first, after)
  else if first = '"' then start.quotedSliced after
  else if first.isDigit then start.numberSliced after
  else if Piece.startsWord first then start.wordSliced after
  else .ok (after.pieceFrom first)

/-- A piece with its text taken from the source, if it is a token. -/
def retext (start : Cursor) : Piece × Cursor → Except Breach (Piece × Cursor)
  | (.token data _, current) => do
    let lexeme ← start.lexeme current
    .ok (.token data lexeme, current)
  | (p, current) => .ok (p, current)

/-- The piece at a cursor and the cursor behind it, with texts taken from the source. -/
def pieceSliced? (start : Cursor) : Except Breach (Option (Piece × Cursor)) :=
  match start.next? with
  | none => .ok none
  | some (first, after) => do
    let read ← start.pieceFromSliced first after
    let piece ← start.retext read
    .ok (some piece)

/-! ### Where the cursor goes

Whatever is found in a slice, the cursor goes where it does without. -/

section Cursors

variable {start after : Cursor} {first : Char} {read : Piece × Cursor}

theorem snd_quotedSliced (h : start.quotedSliced after = .ok read) :
    read.2 = after.quoted.2 := by
  simp only [quotedSliced, quoted, bind, Except.bind] at h ⊢
  grind

theorem snd_numberSliced (h : start.numberSliced after = .ok read) :
    read.2 = (after.number first).2 := by
  simp only [numberSliced, number, advanceWhile, bind, Except.bind] at h ⊢
  grind

theorem snd_wordSliced (h : start.wordSliced after = .ok read) :
    read.2 = (after.word first).2 := by
  simp only [wordSliced, word, advanceWhile, bind, Except.bind] at h ⊢
  grind

theorem snd_pieceFromSliced (h : start.pieceFromSliced first after = .ok read) :
    read.2 = (after.pieceFrom first).2 := by
  unfold pieceFromSliced at h
  unfold pieceFrom
  grind [snd_quotedSliced, snd_numberSliced, snd_wordSliced, pieceFrom]

theorem snd_retext {piece : Piece × Cursor} (h : start.retext read = .ok piece) :
    piece.2 = read.2 := by
  simp only [retext, bind, Except.bind] at h
  grind

theorem exists_of_bind_eq_ok {α β : Type} {x : Except Breach α} {f : α → Except Breach β} {b : β}
    (h : x >>= f = .ok b) : ∃ a, x = .ok a ∧ f a = .ok b := by
  cases x with
  | error breach => cases h
  | ok a => exact ⟨a, rfl, h⟩

/-- Every piece passes at least one character, however its text is taken. -/
theorem rest_pieceSliced?_lt {p : Piece} (h : start.pieceSliced? = .ok (some (p, after))) :
    after.rest.length < start.rest.length := by
  unfold pieceSliced? at h
  split at h
  · cases h
  next first behind hnext =>
    obtain ⟨read, hread, h⟩ := exists_of_bind_eq_ok h
    obtain ⟨piece, hretext, h⟩ := exists_of_bind_eq_ok h
    obtain rfl := Option.some.inj (Except.ok.inj h)
    have hafter := (snd_retext hretext).trans (snd_pieceFromSliced hread)
    have hpiece : start.piece? = some ((behind.pieceFrom first).1, after) := by
      rw [piece?, hnext]
      exact congrArg some (Prod.ext rfl hafter.symm)
    exact rest_piece?_lt hpiece

end Cursors

end Cursor

/-! ### What a slice means -/

namespace Breach

theorem contentsOf_quoted (text : List Char) : contentsOf ('"' :: (text ++ ['"'])) = .ok text := by
  have hquote : '"'.utf8Size = 1 := rfl
  have hcut : Text.betweenBytes? 1 (1 + Text.utf8Length text) ('"' :: (text ++ ['"'])) =
      some text :=
    Text.betweenBytes?_append ['"'] text ['"']
  have hlength : Text.utf8Length ('"' :: (text ++ ['"'])) = 1 + Text.utf8Length text + 1 := by
    simp [hquote, Nat.add_assoc]
  have htwo : ¬1 + Text.utf8Length text + 1 < 2 := by omega
  simp only [contentsOf, hlength, if_neg htwo, Nat.add_sub_cancel, hcut]

variable {digits fraction : List Char}

theorem numeralOf_integer (nonempty : digits ≠ []) (isDigit : ∀ c ∈ digits, c.isDigit) :
    numeralOf digits = .ok (Decimal.read digits []) := by
  have htake : digits.takeWhile Char.isDigit = digits := List.takeWhile_eq_self_iff.2 isDigit
  have hdrop : digits.dropWhile Char.isDigit = [] := List.dropWhile_eq_nil_iff.2 isDigit
  simp only [numeralOf, htake, hdrop, if_neg nonempty]

theorem numeralOf_decimal (nonempty : digits ≠ []) (isDigit : ∀ c ∈ digits, c.isDigit)
    (fraction_nonempty : fraction ≠ []) (fraction_isDigit : ∀ c ∈ fraction, c.isDigit) :
    numeralOf (digits ++ '.' :: fraction) = .ok (Decimal.read digits fraction) := by
  have hpoint : Char.isDigit '.' ≠ true := by decide
  have htake : (digits ++ '.' :: fraction).takeWhile Char.isDigit = digits := by
    rw [List.takeWhile_append_of_pos isDigit, List.takeWhile_cons_of_neg hpoint, List.append_nil]
  have hdrop : (digits ++ '.' :: fraction).dropWhile Char.isDigit = '.' :: fraction := by
    rw [List.dropWhile_append_of_pos isDigit, List.dropWhile_cons_of_neg hpoint]
  have hall : fraction.all Char.isDigit := List.all_eq_true.2 fraction_isDigit
  simp only [numeralOf, htake, hdrop]
  exact if_pos ⟨nonempty, trivial, fraction_nonempty, hall⟩

end Breach

/-! ### Every slice is there -/

namespace Cursor

open Breach

section Sliced

variable {c : Cursor} {first : Char} {read text rest : List Char}

/-- From a cursor to where it has passed a text lies that text. -/
theorem HasRead.lexeme_pass (h : c.HasRead read) (hrest : c.rest = text ++ rest) :
    c.lexeme (c.pass text) = .ok text := by
  rw [lexeme, slice_eq_ok h (h.pass hrest) rfl]
  rfl

theorem HasRead.quotedSliced_eq (h : c.HasRead read) (hrest : c.rest = '"' :: rest) :
    c.quotedSliced (c.pass ['"']) = .ok (c.pass ['"']).quoted := by
  have hafter : (c.pass ['"']).rest = rest := rest_pass hrest
  by_cases hclosed : '"' ∈ rest
  · obtain ⟨text, behind, rfl, no_quote⟩ := List.eq_append_cons_of_mem hclosed
    have hclosing : ((c.pass ['"']).pass text).rest = '"' :: behind := rest_pass hafter
    have hlexeme : c.lexeme (c.pass ('"' :: (text ++ ['"']))) = .ok ('"' :: (text ++ ['"'])) :=
      h.lexeme_pass (by rw [hrest, List.cons_append, List.append_assoc]; rfl)
    rw [quoted_of_closed hafter no_quote, quotedSliced,
      span_eq hafter (bne_of_notMem no_quote) (by simp)]
    dsimp only
    rw [next?_eq hclosing]
    dsimp only
    rw [pass_append, pass_append, List.singleton_append, hlexeme]
    simp only [bind, Except.bind, contentsOf_quoted]
  · have hall : (c.pass ['"']).rest = rest ++ [] := by rw [hafter, List.append_nil]
    have hnext : ((c.pass ['"']).pass rest).next? = none := by rw [next?, rest_pass hall]
    rw [quoted_of_open (by rwa [hafter]), quotedSliced,
      span_eq hall (bne_of_notMem hclosed) (by simp)]
    dsimp only
    rw [hnext, hafter]

theorem HasRead.numberSliced_eq (h : c.HasRead read) (hrest : c.rest = first :: rest)
    (hfirst : first.isDigit) :
    c.numberSliced (c.pass [first]) = .ok ((c.pass [first]).number first) := by
  obtain ⟨digits, behind, rfl, hdigits, hbehind⟩ := exists_span Char.isDigit rest
  have hafter : (c.pass [first]).rest = digits ++ behind := rest_pass hrest
  have hall : ∀ y ∈ first :: digits, y.isDigit := List.forall_mem_cons.2 ⟨hfirst, hdigits⟩
  have hwhole : ((c.pass [first]).advanceWhile Char.isDigit).2 = c.pass (first :: digits) := by
    rw [advanceWhile, span_eq hafter hdigits hbehind]
    exact pass_append c [first] digits
  have hwholeRest : (c.pass (first :: digits)).rest = behind := rest_pass hrest
  by_cases hfraction : StartsFraction behind
  · obtain ⟨d, more, rfl, hd⟩ := hfraction
    obtain ⟨fraction, last, rfl, hmore, hlast⟩ := exists_span Char.isDigit more
    have hdigit : ∀ y ∈ d :: fraction, y.isDigit := List.forall_mem_cons.2 ⟨hd, hmore⟩
    have hnumber : c.rest = (first :: digits ++ '.' :: d :: fraction) ++ last := by simp [hrest]
    have hlexeme := h.lexeme_pass hnumber
    rw [← pass_append] at hlexeme
    rw [← List.cons_append] at hafter hwholeRest
    rw [number_of_decimal hafter hdigits (by simp) hdigit hlast, numberSliced, hwhole,
      fraction?_eq hwholeRest (by simp) hdigit hlast]
    simp only [Option.map_some, Option.getD_some, hlexeme, bind, Except.bind,
      numeralOf_decimal (List.cons_ne_nil first digits) hall (by simp) hdigit]
    rw [pass_append, pass_append]
    rfl
  · have hlexeme : c.lexeme (c.pass (first :: digits)) = .ok (first :: digits) :=
      h.lexeme_pass hrest
    rw [number_of_integer hafter hdigits hbehind hfraction, numberSliced, hwhole,
      fraction?_eq_none (by rwa [hwholeRest])]
    simp only [Option.map_none, Option.getD_none, hlexeme, bind, Except.bind,
      numeralOf_integer (List.cons_ne_nil first digits) hall]
    rw [pass_append]
    rfl

theorem HasRead.wordSliced_eq (h : c.HasRead read) (hrest : c.rest = first :: rest) :
    c.wordSliced (c.pass [first]) = .ok ((c.pass [first]).word first) := by
  obtain ⟨letters, behind, rfl, hletters, hbehind⟩ := exists_span Piece.continuesWord rest
  have hafter : (c.pass [first]).rest = letters ++ behind := rest_pass hrest
  have hword : ((c.pass [first]).advanceWhile Piece.continuesWord).2 =
      (c.pass [first]).pass letters := by
    rw [advanceWhile, span_eq hafter hletters hbehind]
  rw [word_eq hafter hletters hbehind, wordSliced, hword, pass_append, List.singleton_append,
    h.lexeme_pass hrest]
  rfl

theorem HasRead.pieceFromSliced_eq (h : c.HasRead read) (hrest : c.rest = first :: rest) :
    c.pieceFromSliced first (c.pass [first]) = .ok ((c.pass [first]).pieceFrom first) := by
  unfold pieceFromSliced
  split
  next hblank => rw [pieceFrom, if_pos hblank]
  next hblank =>
    split
    next hquote =>
      subst hquote
      rw [h.quotedSliced_eq hrest, pieceFrom, if_neg hblank, if_pos rfl]
    next hquote =>
      split
      next hdigit => rw [h.numberSliced_eq hrest hdigit, pieceFrom_of_isDigit hdigit]
      next hdigit =>
        split
        next hword =>
          rw [h.wordSliced_eq hrest, pieceFrom, if_neg hblank, if_neg hquote, if_neg hdigit,
            if_pos hword]
        next => rfl

theorem reads_of_piece? {p : Piece} {after : Cursor} (h : c.piece? = some (p, after)) :
    c.Reads p ∧ after = c.pass p.text := by
  have hne : c.rest ≠ [] := by
    intro hnil
    simp [piece?, next?, hnil] at h
  obtain ⟨q, rest, hreads, -, -⟩ := exists_reads hne
  obtain ⟨rfl, rfl⟩ := Prod.mk.inj (Option.some.inj (h.symm.trans hreads))
  exact ⟨hreads, rfl⟩

theorem HasRead.retext_eq (h : c.HasRead read) {p : Piece} (hp : c.Reads p) :
    c.retext (p, c.pass p.text) = .ok (p, c.pass p.text) := by
  obtain ⟨rest, hrest, -⟩ := hp.exists_fits
  cases p with
  | token data text =>
    have hlexeme : c.lexeme (c.pass text) = .ok text := h.lexeme_pass hrest
    simp only [retext, Piece.text, hlexeme, bind, Except.bind]
  | _ => rfl

/-- Every slice that is taken for a piece is there, and says what the piece does. -/
theorem HasRead.pieceSliced?_eq (h : c.HasRead read) : c.pieceSliced? = .ok c.piece? := by
  cases hrest : c.rest with
  | nil => simp [pieceSliced?, piece?, next?, hrest]
  | cons first rest =>
    have hfrom := h.pieceFromSliced_eq hrest
    have hpiece := piece?_eq hrest
    generalize (c.pass [first]).pieceFrom first = read at hfrom hpiece
    obtain ⟨hreads, hafter⟩ := reads_of_piece? hpiece
    have hretext := h.retext_eq hreads
    rw [← hafter] at hretext
    rw [hpiece, pieceSliced?, next?_eq hrest]
    simp only [hfrom, hretext, bind, Except.bind]

end Sliced

end Cursor

namespace TokenStream

open Cursor

/-- The next token, at the latest the end of the input, with texts taken from the source. -/
def advanceSliced (s : TokenStream) : Except Breach (Token × TokenStream) :=
  match _h : s.cursor.pieceSliced? with
  | .error breach => .error breach
  | .ok none => .ok (.endOn s.cursor.line, { s with finished := true })
  | .ok (some (.token data text, after)) =>
    .ok (⟨data, String.ofList text, after.line⟩, s.moveTo after)
  | .ok (some (.blank _, after)) => advanceSliced (s.moveTo after)
  | .ok (some (.comment _, after)) => advanceSliced (s.moveTo after)
  | .ok (some (.stray c, after)) =>
    advanceSliced (s.note (.unexpectedCharacter c after.line) after)
  | .ok (some (.openString _, after)) =>
    advanceSliced (s.note (.unterminatedString after.line) after)
  termination_by s.cursor.rest.length
  decreasing_by all_goals exact rest_pieceSliced?_lt _h

/-- The next token, or nothing once the end of the input was returned, with texts taken from the
source. -/
def nextSliced? (s : TokenStream) : Except Breach (Option (Token × TokenStream)) :=
  if s.finished then .ok none else s.advanceSliced.map some

/-- What some calls for the next token return, and the stream behind them. -/
def nexts (s : TokenStream) : Nat → List (Option Token) × TokenStream
  | 0 => ([], s)
  | n + 1 =>
    match s.next? with
    | none => (none :: (nexts s n).1, (nexts s n).2)
    | some (t, after) => (some t :: (nexts after n).1, (nexts after n).2)

/-- What some calls for the next token return, with texts taken from the source. -/
def nextsSliced (s : TokenStream) : Nat → Except Breach (List (Option Token) × TokenStream)
  | 0 => .ok ([], s)
  | n + 1 => do
    match ← s.nextSliced? with
    | none =>
      let (tokens, last) ← nextsSliced s n
      .ok (none :: tokens, last)
    | some (t, after) =>
      let (tokens, last) ← nextsSliced after n
      .ok (some t :: tokens, last)

theorem advanceSliced_of_end {s : TokenStream} (h : s.cursor.rest = []) :
    s.advanceSliced = .ok (.endOn s.cursor.line, { s with finished := true }) := by
  have hpiece : s.cursor.pieceSliced? = .ok none := by simp [pieceSliced?, Cursor.next?, h]
  rw [advanceSliced]
  split <;> grind

theorem advanceSliced_of_reads {s : TokenStream} {read : List Char} (h : s.cursor.HasRead read)
    {p : Piece} (hp : s.cursor.Reads p) :
    s.advanceSliced = match Piece.token? (p, s.cursor.line + Text.lineFeeds p.text) with
      | some t => .ok (t, s.behind p)
      | none => (s.behind p).advanceSliced := by
  have hpiece : s.cursor.pieceSliced? = .ok (some (p, s.cursor.pass p.text)) := by
    rw [h.pieceSliced?_eq, hp]
  rw [advanceSliced]
  split
  next hread => simp [hread] at hpiece
  next hread => simp [hread] at hpiece
  -- every other branch goes on behind the piece, as `behind` does
  all_goals
    rename_i hread
    obtain ⟨rfl, rfl⟩ := Prod.mk.inj (Option.some.inj (Except.ok.inj (hread.symm.trans hpiece)))
    simp [Piece.token?, Piece.fault?, behind, moveTo, note]

/-- A stream stands between what it has read of its source and what is left. -/
def HasRead (s : TokenStream) : Prop := ∃ read, s.cursor.HasRead read

/-- A stream finds every slice that it takes, and still stands in its source behind a token. -/
theorem HasRead.advanceSliced_eq {s : TokenStream} (h : s.HasRead) :
    s.advanceSliced = .ok s.advance ∧ s.advance.2.HasRead := by
  -- the induction is on how the text that is left is cut into pieces
  obtain ⟨pieces, hpieces⟩ := Piece.existsUnique_cut s.cursor.rest
  have hcut := (hpieces pieces).2 rfl
  generalize hrest : s.cursor.rest = rest at hcut
  clear hpieces
  induction hcut generalizing s with
  | nil =>
    rw [advanceSliced_of_end hrest, advance_of_end hrest]
    exact ⟨rfl, h⟩
  | @cons p rest pieces stands more ih =>
    obtain ⟨read, h⟩ := h
    have hreads := (stands_iff hrest).1 stands
    have hbehind : (s.behind p).HasRead := ⟨_, h.pass hrest⟩
    rw [advanceSliced_of_reads h hreads, advance_of_reads hreads]
    cases Piece.token? (p, s.cursor.line + Text.lineFeeds p.text) with
    | some t => exact ⟨rfl, hbehind⟩
    | none => exact ih hbehind (rest_pass hrest)

theorem HasRead.nextsSliced_eq {s : TokenStream} (h : s.HasRead) (n : Nat) :
    s.nextsSliced n = .ok (s.nexts n) := by
  induction n generalizing s with
  | zero => rfl
  | succ n ih =>
    obtain ⟨hadvance, hafter⟩ := h.advanceSliced_eq
    rw [nextsSliced, nexts, nextSliced?, next?]
    split
    · simp only [bind, Except.bind, ih h]
    · simp only [hadvance, Except.map, bind, Except.bind, ih hafter]

end TokenStream

end LoxCalc
