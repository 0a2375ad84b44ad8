import LoxCalc.Proofs.Token.Respelling

/-!
# Layout in front of a source

Blanks and comments that end with their line belong to no token and to no fault, and nothing behind
them depends on them. Main statement: `scan_layout`, a source with layout in front of it has the
same tokens and the same faults, as many lines further down.
-/

namespace LoxCalc

namespace Text

/-- Texts of blanks and of comments, each with the line feed that ends it. -/
inductive IsLayout : List Char → Prop
  | nil : IsLayout []
  | blank {c : Char} {text : List Char} (isBlank : Piece.isBlank c) (more : IsLayout text) :
      IsLayout (c :: text)
  | comment {body text : List Char} (no_lineFeed : '\n' ∉ body) (more : IsLayout text) :
      IsLayout ('/' :: '/' :: (body ++ '\n' :: text))

end Text

namespace Piece

/-- The pieces of layout in front of a cut text: each is a blank or a comment. -/
theorem Cut.exists_layout {layout source : List Char} {ps : List Piece} (h : Text.IsLayout layout)
    (hcut : Cut source ps) : ∃ ls, Cut (layout ++ source) (ls ++ ps) ∧ ls.flatMap text = layout ∧
      ∀ p ∈ ls, ∀ line, token? (p, line) = none ∧ fault? (p, line) = none := by
  induction h with
  | nil => exact ⟨[], hcut, rfl, by simp⟩
  | @blank c layout isBlank more ih =>
    obtain ⟨ls, hls, htext, hnone⟩ := ih
    refine ⟨.blank c :: ls, .cons (stands_blank isBlank _) hls, ?_, ?_⟩
    · rw [List.flatMap_cons, htext]
      rfl
    · exact List.forall_mem_cons.2 ⟨fun line => ⟨rfl, rfl⟩, hnone⟩
  | @comment body layout no_lineFeed more ih =>
    obtain ⟨ls, hls, htext, hnone⟩ := ih
    have hfeed : Cut ('\n' :: (layout ++ source)) (.blank '\n' :: (ls ++ ps)) :=
      .cons (stands_blank (by decide) _) hls
    have hstands : (comment ('/' :: '/' :: body)).Stands ('\n' :: (layout ++ source)) :=
      (Cursor.stands_iff (c := .ofText _) rfl).2
        (Cursor.reads_comment rfl no_lineFeed (by simp))
    refine ⟨.comment ('/' :: '/' :: body) :: .blank '\n' :: ls, ?_, ?_, ?_⟩
    · have hcons := Cut.cons hstands hfeed
      simpa [text] using hcons
    · simp [text, htext]
    · exact List.forall_mem_cons.2 ⟨fun line => ⟨rfl, rfl⟩,
        List.forall_mem_cons.2 ⟨fun line => ⟨rfl, rfl⟩, hnone⟩⟩

/-- Pieces of which nothing is made move those behind them. -/
theorem filterMap_placed_layout {α : Type} {f : Piece × Nat → Option α} {g : Nat → α → α}
    (hf : ∀ p line n, f (p, line + n) = (f (p, line)).map (g n)) {ls : List Piece}
    (hnone : ∀ p ∈ ls, ∀ line, f (p, line) = none) (ps : List Piece) :
    (placed 1 (ls ++ ps)).filterMap f =
      ((placed 1 ps).filterMap f).map (g (Text.lineFeeds (ls.flatMap text))) := by
  have hls : (placed 1 ls).filterMap f = [] := by
    rw [List.filterMap_eq_nil_iff]
    rintro ⟨p, line⟩ hp
    exact hnone p (mem_of_mem_placed hp) line
  rw [placed_append, List.filterMap_append, hls, List.nil_append,
    filterMap_placed_add fun p line => hf p line _]

end Piece

namespace TokenStream

open Piece (Cut)

/-- Layout in front of a source moves its tokens and its faults down by the lines it takes. -/
theorem scan_layout {layout : String} (h : Text.IsLayout layout.toList) (source : String)
    (r : Report) :
    let n := Text.lineFeeds layout.toList
    (scan (layout ++ source) r).1 = (scan source r).1.map (Token.below n) ∧
      faultsOf (layout ++ source) = (faultsOf source).map (LexicalFault.below n) := by
  intro n
  obtain ⟨ps, hps⟩ := Piece.existsUnique_cut source.toList
  have hcut : Cut source.toList ps := (hps ps).2 rfl
  obtain ⟨ls, hls, htext, hnone⟩ := hcut.exists_layout h
  rw [← String.toList_append] at hls
  obtain ⟨htokens, hfaults⟩ := scan_of_cut hcut
  obtain ⟨htokens', hfaults'⟩ := scan_of_cut hls
  have hend : Token.endOn (1 + Text.lineFeeds (layout ++ source).toList) =
      (Token.endOn (1 + Text.lineFeeds source.toList)).below n := by
    simp [Token.below, Token.endOn, Text.lineFeeds, n]
    omega
  constructor
  · rw [htokens', htokens, List.map_append, hend,
      Piece.filterMap_placed_layout Piece.token?_add fun p hp line => (hnone p hp line).1, htext]
    rfl
  · rw [hfaults', hfaults,
      Piece.filterMap_placed_layout Piece.fault?_add fun p hp line => (hnone p hp line).2, htext]

end TokenStream

end LoxCalc
