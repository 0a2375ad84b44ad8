import LoxCalc.Proofs.Token.LineBreak
import Mathlib.Data.List.ReduceOption

/-!
# Lines of tokens and faults

The line of a piece counts the line feeds of the source up to the end of that piece. A stray
character is no line feed, so its line counts those in front of it, and an open string is the last
piece, so its line counts them all. Main statements: `scan_eq_mapIdx`, the tokens and faults of a
source with their lines, and `pairwise_line_scan`, the lines never go down.
-/

namespace LoxCalc

namespace Piece

/-- The text of the first pieces of a list. -/
def textBefore (ps : List Piece) (n : Nat) : List Char := (ps.take n).flatMap text

/-- The fault that a piece is, if it starts on a line and the source has a last line. -/
def faultOn? (p : Piece) (line last : Nat) : Option LexicalFault :=
  match p with
  | stray c => some (.unexpectedCharacter c line)
  | openString _ => some (.unterminatedString last)
  | _ => none

theorem lineFeeds_textBefore_cons (p : Piece) (ps : List Piece) (n : Nat) :
    Text.lineFeeds (textBefore (p :: ps) (n + 1)) =
      Text.lineFeeds p.text + Text.lineFeeds (textBefore ps n) :=
  Text.lineFeeds_append p.text (textBefore ps n)

theorem map_placed {α : Type} (f : Piece × Nat → α) (line : Nat) (ps : List Piece) :
    (placed line ps).map f =
      ps.mapIdx fun i p => f (p, line + Text.lineFeeds (textBefore ps (i + 1))) := by
  induction ps generalizing line with
  | nil => rfl
  | cons p ps ih =>
    rw [placed, List.map_cons, ih, List.mapIdx_cons]
    simp only [lineFeeds_textBefore_cons, Nat.add_assoc]
    rfl

/-- What a piece that fits is reported as, by the line that it starts on. -/
theorem Fits.fault?_eq {p : Piece} {rest : List Char} (h : p.Fits rest) (line : Nat) :
    fault? (p, line + Text.lineFeeds p.text) =
      p.faultOn? line (line + Text.lineFeeds (p.text ++ rest)) := by
  cases p with
  | stray c =>
    rw [h.lineFeeds_stray]
    rfl
  | openString text =>
    cases h with
    | openString no_quote =>
      rw [List.append_nil]
      rfl
  | _ => rfl

/-- The faults of a cut, each with its line. -/
theorem Cut.map_fault? {source : List Char} {ps : List Piece} (h : Cut source ps) (line : Nat) :
    (placed line ps).map fault? =
      ps.mapIdx fun i p => p.faultOn? (line + Text.lineFeeds (textBefore ps i))
        (line + Text.lineFeeds source) := by
  induction h generalizing line with
  | nil => rfl
  | @cons p rest ps stands more ih =>
    have hlast : line + Text.lineFeeds p.text + Text.lineFeeds rest =
        line + Text.lineFeeds (p.text ++ rest) := by
      rw [Text.lineFeeds_append, Nat.add_assoc]
    rw [placed, List.map_cons, ih, stands.fits.fault?_eq, List.mapIdx_cons, hlast]
    simp only [lineFeeds_textBefore_cons, Nat.add_assoc]
    rfl

/-! ### The order of lines -/

theorem le_line_of_mem_placed {q : Piece × Nat} {line : Nat} {ps : List Piece}
    (h : q ∈ placed line ps) : line ≤ q.2 ∧ q.2 ≤ line + Text.lineFeeds (ps.flatMap text) := by
  induction ps generalizing line with
  | nil => simp [placed] at h
  | cons p ps ih =>
    rw [List.flatMap_cons, Text.lineFeeds_append]
    rcases List.mem_cons.1 h with rfl | h
    · constructor <;> dsimp only <;> omega
    · obtain ⟨hlow, hhigh⟩ := ih h
      constructor <;> omega

theorem pairwise_placed (line : Nat) (ps : List Piece) :
    (placed line ps).Pairwise fun q q' => q.2 ≤ q'.2 := by
  induction ps generalizing line with
  | nil => exact .nil
  | cons p ps ih => exact .cons (fun q hq => (le_line_of_mem_placed hq).1) (ih _)

theorem line_of_token? {q : Piece × Nat} {t : Token} (h : token? q = some t) : t.line = q.2 := by
  obtain ⟨_ | _ | _ | _ | _, line⟩ := q
  case token => exact (congrArg Token.line (Option.some.inj h)).symm
  all_goals cases h

theorem line_of_fault? {q : Piece × Nat} {f : LexicalFault} (h : fault? q = some f) :
    f.line = q.2 := by
  obtain ⟨_ | _ | _ | _ | _, line⟩ := q
  case stray | openString => exact (congrArg LexicalFault.line (Option.some.inj h)).symm
  all_goals cases h

/-- What is made of pieces has lines that never go down and stay within the text, if it is on the
lines of the pieces. -/
theorem pairwise_filterMap_placed {α : Type} {f : Piece × Nat → Option α} {lineOf : α → Nat}
    (hf : ∀ q a, f q = some a → lineOf a = q.2) (line : Nat) (ps : List Piece) :
    ((placed line ps).filterMap f).Pairwise (fun a b => lineOf a ≤ lineOf b) ∧
      ∀ a ∈ (placed line ps).filterMap f,
        line ≤ lineOf a ∧ lineOf a ≤ line + Text.lineFeeds (ps.flatMap text) := by
  constructor
  · apply (pairwise_placed line ps).filterMap
    intro q q' hle a ha b hb
    rwa [hf q a ha, hf q' b hb]
  · intro a ha
    obtain ⟨q, hq, hqa⟩ := List.mem_filterMap.1 ha
    rw [hf q a hqa]
    exact le_line_of_mem_placed hq

end Piece

namespace TokenStream

open Piece (Cut placed token? fault? textBefore faultOn?)

/-- The tokens and faults of a source that is cut, each with its line. -/
theorem scan_eq_mapIdx {source : String} {ps : List Piece} (h : Cut source.toList ps) (r : Report) :
    let last := 1 + Text.lineFeeds source.toList
    (scan source r).1 =
        (ps.mapIdx fun i p => token? (p, 1 + Text.lineFeeds (textBefore ps (i + 1)))).reduceOption ++
          [.endOn last] ∧
      faultsOf source = (ps.mapIdx fun i p =>
        p.faultOn? (1 + Text.lineFeeds (textBefore ps i)) last).reduceOption := by
  intro last
  obtain ⟨htokens, hfaults⟩ := scan_of_cut h
  have hmade : ∀ {α : Type} (f : Piece × Nat → Option α),
      (placed 1 ps).filterMap f = ((placed 1 ps).map f).reduceOption := by
    intro α f
    rw [List.reduceOption, List.filterMap_map, Function.id_comp]
  rw [htokens, hfaults, hmade, hmade, h.map_fault?, Piece.map_placed]
  exact ⟨rfl, rfl⟩

example : faultsOf "\"a\nb\" @\n\"" = [.unexpectedCharacter '@' 2, .unterminatedString 3] := by
  decide +kernel

/-- The lines of the tokens never go down, and neither do those of the faults. All of them are
lines of the source. -/
theorem pairwise_line_scan (source : String) (r : Report) :
    let last := 1 + Text.lineFeeds source.toList
    (scan source r).1.Pairwise (fun t u => t.line ≤ u.line) ∧
      (∀ t ∈ (scan source r).1, 1 ≤ t.line ∧ t.line ≤ last) ∧
      (faultsOf source).Pairwise (fun f g => f.line ≤ g.line) ∧
      ∀ f ∈ faultsOf source, 1 ≤ f.line ∧ f.line ≤ last := by
  intro last
  obtain ⟨ps, hps⟩ := Piece.existsUnique_cut source.toList
  have hcut : Cut source.toList ps := (hps ps).2 rfl
  obtain ⟨htokens, hfaults⟩ := scan_of_cut hcut
  obtain ⟨hsorted, hbounds⟩ := Piece.pairwise_filterMap_placed
    (fun _ _ => Piece.line_of_token?) 1 ps
  obtain ⟨hsorted', hbounds'⟩ := Piece.pairwise_filterMap_placed
    (fun _ _ => Piece.line_of_fault?) 1 ps
  rw [Piece.flatMap_text_of_cut hcut] at hbounds hbounds'
  rw [htokens, hfaults]
  refine ⟨?_, ?_, hsorted', hbounds'⟩
  · refine List.pairwise_append.2 ⟨hsorted, List.pairwise_singleton _ _, fun t ht u hu => ?_⟩
    obtain rfl := List.mem_singleton.1 hu
    exact (hbounds t ht).2
  · intro t ht
    rcases List.mem_append.1 ht with ht | ht
    · exact hbounds t ht
    · obtain rfl := List.mem_singleton.1 ht
      exact ⟨Nat.le_add_right _ _, Nat.le_refl _⟩

end TokenStream

end LoxCalc
