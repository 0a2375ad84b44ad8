import LoxCalc.Report
import LoxCalc.Token.Piece

/-!
# Token streams

A token stream reads the tokens of a source one at a time. What lies between two tokens is skipped,
and what cannot be read is skipped and noted as a fault. The last token marks the end of the input.
`TokenStream.scan` reads a whole source.
-/

namespace LoxCalc

/-- A part of a source that belongs to no token, and the line that it ends on. -/
inductive LexicalFault
  | unexpectedCharacter (c : Char) (line : Nat)
  | unterminatedString (line : Nat)
  deriving DecidableEq

namespace LexicalFault

/-- The line of a fault. -/
def line : LexicalFault → Nat
  | unexpectedCharacter _ line => line
  | unterminatedString line => line

/-- What a fault says. -/
def message : LexicalFault → String
  | unexpectedCharacter c _ => "Unexpected character '" ++ String.singleton c ++ "'."
  | unterminatedString _ => "Unterminated string."

/-- The issue that a fault is reported as. It has no lexeme to point at. -/
def issue (f : LexicalFault) : Issue := ⟨.reading, f.line, .unknown, f.message⟩

/-- A fault with its line. -/
def text (f : LexicalFault) : String := f.issue.text

end LexicalFault

/-- The place reached in a source, the faults found so far, and whether the end was returned. -/
structure TokenStream where
  cursor : Cursor
  faults : Array LexicalFault
  finished : Bool

namespace TokenStream

/-- The stream of all tokens of a source. -/
def ofString (source : String) : TokenStream := ⟨.ofText source.toList, #[], false⟩

/-- Moves on to a cursor. -/
def moveTo (s : TokenStream) (c : Cursor) : TokenStream := { s with cursor := c }

/-- Notes a fault and moves on behind it. -/
def note (s : TokenStream) (f : LexicalFault) (c : Cursor) : TokenStream :=
  { s with cursor := c, faults := s.faults.push f }

/-- The next token, at the latest the end of the input. -/
def advance (s : TokenStream) : Token × TokenStream :=
  match _h : s.cursor.piece? with
  | none => (.endOn s.cursor.line, { s with finished := true })
  | some (.token data text, after) =>
    (⟨data, String.ofList text, after.line⟩, s.moveTo after)
  | some (.blank _, after) => advance (s.moveTo after)
  | some (.comment _, after) => advance (s.moveTo after)
  | some (.stray c, after) => advance (s.note (.unexpectedCharacter c after.line) after)
  | some (.openString _, after) => advance (s.note (.unterminatedString after.line) after)
  termination_by s.cursor.rest.length
  decreasing_by all_goals exact Cursor.rest_piece?_lt _h

/-- The next token, or nothing once the end of the input was returned. -/
def next? (s : TokenStream) : Option (Token × TokenStream) :=
  if s.finished then none else some s.advance

/-- The faults found so far. -/
def lexicalFaults (s : TokenStream) : List LexicalFault := s.faults.toList

/-- Adds the faults found so far to a report. -/
def report (s : TokenStream) (r : Report) : Report :=
  r.addAll (s.lexicalFaults.map LexicalFault.issue)

/-! ### Reading to the end -/

/-- How much a stream has still to do: the text that is left, and the end of the input. -/
def remaining (s : TokenStream) : Nat := s.cursor.rest.length + if s.finished then 0 else 1

/-- A token either ends the stream or takes some text. -/
theorem finished_or_rest_advance_lt (s : TokenStream) :
    s.advance.2.finished = true ∧ s.advance.2.cursor.rest.length ≤ s.cursor.rest.length ∨
      s.advance.2.finished = s.finished ∧
        s.advance.2.cursor.rest.length < s.cursor.rest.length := by
  fun_induction advance s with
  | case1 => simp
  | case2 s data text after h => exact .inr ⟨rfl, Cursor.rest_piece?_lt h⟩
  | case3 s c after h ih =>
    have := Cursor.rest_piece?_lt h
    simp only [moveTo] at ih ⊢
    grind
  | case4 s text after h ih =>
    have := Cursor.rest_piece?_lt h
    simp only [moveTo] at ih ⊢
    grind
  | case5 s c after h ih =>
    have := Cursor.rest_piece?_lt h
    simp only [note] at ih ⊢
    grind
  | case6 s text after h ih =>
    have := Cursor.rest_piece?_lt h
    simp only [note] at ih ⊢
    grind

/-- Every token leaves less to do. -/
theorem remaining_next?_lt {s after : TokenStream} {t : Token} (h : s.next? = some (t, after)) :
    after.remaining < s.remaining := by
  unfold next? at h
  split at h
  · simp at h
  next hs =>
    have := finished_or_rest_advance_lt s
    simp only [Option.some.injEq] at h
    rw [h] at this
    simp only [remaining]
    grind

/-- The tokens not yet returned, and the stream behind them. -/
def drain (s : TokenStream) : List Token × TokenStream :=
  match _h : s.next? with
  | none => ([], s)
  | some (t, after) =>
    let (tokens, last) := drain after
    (t :: tokens, last)
  termination_by s.remaining
  decreasing_by exact remaining_next?_lt _h

/-- The tokens not yet returned; the faults of the whole source go into the report. -/
def finish (s : TokenStream) (r : Report) : List Token × Report :=
  let (tokens, last) := s.drain
  (tokens, last.report r)

/-- The tokens of a source; its faults go into the report. -/
def scan (source : String) (r : Report) : List Token × Report := (ofString source).finish r

end TokenStream

end LoxCalc
