import LoxCalc.Proofs.Token.Munch
import LoxCalc.Token.Stream

/-!
# Cuts of a source

A source can be cut in exactly one way into pieces that stand where they are. Main statement:
`scan_cut`, the tokens of a source are the tokens of that cut with one end of input behind them, and
its faults are the faults of that cut.
-/

namespace LoxCalc

namespace Piece

/-- The ways to cut a text into pieces that stand where they are. -/
inductive Cut : List Char → List Piece → Prop
  | nil : Cut [] []
  | cons {p : Piece} {rest : List Char} {pieces : List Piece} (stands : p.Stands rest)
      (more : Cut rest pieces) : Cut (p.text ++ rest) (p :: pieces)

/-- Pieces with the lines that they end on, if the first one starts on a line. -/
def placed (line : Nat) : List Piece → List (Piece × Nat)
  | [] => []
  | p :: pieces =>
    (p, line + Text.lineFeeds p.text) :: placed (line + Text.lineFeeds p.text) pieces

/-- The token that a piece is. -/
def token? : Piece × Nat → Option Token
  | (token data text, line) => some ⟨data, String.ofList text, line⟩
  | _ => none

/-- The fault that a piece is. -/
def fault? : Piece × Nat → Option LexicalFault
  | (stray c, line) => some (.unexpectedCharacter c line)
  | (openString _, line) => some (.unterminatedString line)
  | _ => none

theorem cut_nil_iff {pieces : List Piece} : Cut [] pieces ↔ pieces = [] := by
  constructor
  · generalize hsource : ([] : List Char) = source
    intro h
    cases h with
    | nil => rfl
    | cons stands => exact absurd (List.append_eq_nil_iff.1 hsource.symm).1 stands.fits.text_ne_nil
  · rintro rfl
    exact .nil

/-- Nothing is lost in a cut, and nothing is read twice. -/
theorem flatMap_text_of_cut {source : List Char} {pieces : List Piece} (h : Cut source pieces) :
    pieces.flatMap text = source := by
  induction h with
  | nil => rfl
  | cons _ _ ih => rw [List.flatMap_cons, ih]

/-- What stands first in a text is the first piece of every cut. -/
theorem cut_iff {p : Piece} {rest : List Char} (h : p.Stands rest) (pieces : List Piece) :
    Cut (p.text ++ rest) pieces ↔ ∃ more, pieces = p :: more ∧ Cut rest more := by
  constructor
  · generalize hsource : p.text ++ rest = source
    intro hcut
    cases hcut with
    | nil => exact absurd (List.append_eq_nil_iff.1 hsource).1 h.fits.text_ne_nil
    | @cons q rest' more stands hmore =>
      have hp := (Cursor.stands_iff (c := .ofText (p.text ++ rest)) rfl).1 h
      have hq := (Cursor.stands_iff (c := .ofText (p.text ++ rest)) hsource).1 stands
      obtain rfl := hp.unique hq
      obtain rfl := List.append_cancel_left hsource
      exact ⟨more, rfl, hmore⟩
  · rintro ⟨more, rfl, hmore⟩
    exact .cons h hmore

/-- A source is cut in exactly one way. -/
theorem existsUnique_cut (source : List Char) :
    ∃ pieces, ∀ qs, Cut source qs ↔ qs = pieces := by
  induction hn : source.length using Nat.strongRecOn generalizing source with
  | ind n ih =>
    by_cases hsource : source = []
    · subst hsource
      exact ⟨[], fun qs => cut_nil_iff⟩
    · obtain ⟨p, rest, hreads, hrest, -⟩ := Cursor.exists_reads (c := .ofText source) hsource
      have hrest : source = p.text ++ rest := hrest
      -- the source behind the first piece is shorter, so it is cut in one way
      have hlt := Cursor.rest_piece?_lt hreads
      rw [Cursor.rest_pass hrest] at hlt
      obtain ⟨pieces, hpieces⟩ := ih rest.length (hn ▸ hlt) rest rfl
      have hstands : p.Stands rest := (Cursor.stands_iff (c := .ofText source) hrest).2 hreads
      refine ⟨p :: pieces, fun qs => ?_⟩
      rw [hrest, cut_iff hstands]
      simp [hpieces]

end Piece

namespace TokenStream

open Piece (Cut placed token? fault?)

/-- The stream behind the piece that it reads next. -/
def behind (s : TokenStream) (p : Piece) : TokenStream :=
  { s with
    cursor := s.cursor.pass p.text
    faults := s.faults ++ (fault? (p, s.cursor.line + Text.lineFeeds p.text)).toArray }

theorem advance_of_reads {s : TokenStream} {p : Piece} (h : s.cursor.Reads p) :
    s.advance = match token? (p, s.cursor.line + Text.lineFeeds p.text) with
      | some t => (t, s.behind p)
      | none => (s.behind p).advance := by
  have hpiece : s.cursor.piece? = some (p, s.cursor.pass p.text) := h
  rw [advance]
  split
  next hread => simp [hread] at hpiece
  -- every other branch goes on behind the piece, as `behind` does
  all_goals
    rename_i hread
    obtain ⟨rfl, rfl⟩ := Prod.mk.inj (Option.some.inj (hpiece.symm.trans hread))
    simp [token?, fault?, behind, moveTo, note]

theorem advance_of_end {s : TokenStream} (h : s.cursor.rest = []) :
    s.advance = (.endOn s.cursor.line, { s with finished := true }) := by
  have hpiece : s.cursor.piece? = none := by simp [Cursor.piece?, Cursor.next?, h]
  rw [advance]
  split
  · rfl
  all_goals simp_all

theorem drain_of_finished {s : TokenStream} (hs : s.finished = true) : s.drain = ([], s) := by
  rw [drain]
  split
  · rfl
  next h => simp [next?, hs] at h

theorem drain_of_advance {s : TokenStream} (hs : s.finished = false) :
    s.drain = (s.advance.1 :: s.advance.2.drain.1, s.advance.2.drain.2) := by
  rw [drain]
  split
  next h => simp [next?, hs] at h
  next t after h =>
    have hadvance : s.advance = (t, after) := by simpa [next?, hs] using h
    rw [hadvance]

/-- What is drained from a stream, piece by piece. -/
theorem drain_of_reads {s : TokenStream} {p : Piece} (hs : s.finished = false)
    (h : s.cursor.Reads p) :
    s.drain = ((token? (p, s.cursor.line + Text.lineFeeds p.text)).toList ++ (s.behind p).drain.1,
      (s.behind p).drain.2) := by
  rw [drain_of_advance hs, advance_of_reads h]
  cases token? (p, s.cursor.line + Text.lineFeeds p.text) with
  | some t => rfl
  | none =>
    have hbehind : (s.behind p).finished = false := hs
    exact (drain_of_advance hbehind).symm

theorem drain_of_end {s : TokenStream} (hs : s.finished = false) (h : s.cursor.rest = []) :
    s.drain = ([.endOn s.cursor.line], { s with finished := true }) := by
  rw [drain_of_advance hs, advance_of_end h, drain_of_finished rfl]

/-- What is drained from a stream whose text is cut. -/
theorem drain_of_cut {source : List Char} {pieces : List Piece} (hcut : Cut source pieces)
    {s : TokenStream} (hs : s.finished = false) (h : s.cursor.rest = source) :
    s.drain.1 = (placed s.cursor.line pieces).filterMap token? ++
        [.endOn (s.cursor.line + Text.lineFeeds source)] ∧
      s.drain.2.lexicalFaults =
        s.lexicalFaults ++ (placed s.cursor.line pieces).filterMap fault? := by
  induction hcut generalizing s with
  | nil =>
    rw [drain_of_end hs h]
    simp [placed, lexicalFaults, Text.lineFeeds]
  | @cons p rest pieces stands more ih =>
    have hreads := (Cursor.stands_iff h).1 stands
    obtain ⟨htokens, hfaults⟩ := ih (s := s.behind p) hs (Cursor.rest_pass h)
    rw [drain_of_reads hs hreads, htokens, hfaults]
    -- the rest starts on the line on which the piece ends
    have hline : (s.behind p).cursor.line = s.cursor.line + Text.lineFeeds p.text := rfl
    have hnoted : (s.behind p).lexicalFaults = s.lexicalFaults ++
        (fault? (p, s.cursor.line + Text.lineFeeds p.text)).toList := by
      simp [lexicalFaults, behind]
    rw [hline, hnoted, Text.lineFeeds_append, placed, Nat.add_assoc]
    constructor
    · cases h : token? (p, s.cursor.line + Text.lineFeeds p.text) <;> simp [h]
    · cases h : fault? (p, s.cursor.line + Text.lineFeeds p.text) <;> simp [h]

/-- A source is cut in exactly one way, and scanning it follows that cut: the tokens are those of
the pieces with one end of input behind them, and the faults are those of the pieces. -/
theorem scan_cut (source : String) (r : Report) :
    ∃ pieces, (∀ qs, Cut source.toList qs ↔ qs = pieces) ∧
      pieces.flatMap Piece.text = source.toList ∧
      scan source r =
        ((placed 1 pieces).filterMap token? ++ [.endOn (1 + Text.lineFeeds source.toList)],
          r.addAll (((placed 1 pieces).filterMap fault?).map LexicalFault.issue)) := by
  obtain ⟨pieces, hpieces⟩ := Piece.existsUnique_cut source.toList
  have hcut : Cut source.toList pieces := (hpieces pieces).2 rfl
  obtain ⟨htokens, hfaults⟩ := drain_of_cut hcut (s := ofString source) rfl rfl
  refine ⟨pieces, hpieces, Piece.flatMap_text_of_cut hcut, ?_⟩
  rw [scan, finish]
  simp only [report, htokens, hfaults]
  rfl

end TokenStream

end LoxCalc
