import LoxCalc.Proofs.Token.Respelling
import Mathlib.Data.List.Forall2

/-!
# Input that is passed over

Scanning passes over comments and stray characters as it passes over blanks. What stands at a place
depends on the text behind it, so this needs that no piece gets longer, or is another one, when
spaces are written over some of that text (`Stands.of_blanked`). Main statement: `scan_blanked`, with
spaces written over all comments and stray characters a source has the same tokens on the same
lines, and of its faults only a string that is left open remains.
-/

namespace LoxCalc

/-! ### Writing spaces over a text -/

namespace Text

/-- Whether a text becomes another one when spaces are written over some of its characters. -/
def Blanked (text text' : List Char) : Prop :=
  List.Forall₂ (fun c c' => c' = c ∨ c' = ' ') text text'

namespace Blanked

variable {text front back : List Char}

theorem refl (text : List Char) : Blanked text text :=
  (List.forall₂_same).2 fun _ _ => .inl rfl

theorem append {xs xs' ys ys' : List Char} (h : Blanked xs xs') (h' : Blanked ys ys') :
    Blanked (xs ++ ys) (xs' ++ ys') :=
  List.rel_append h h'

theorem replicate (text : List Char) : Blanked text (List.replicate text.length ' ') := by
  induction text with
  | nil => exact .nil
  | cons c text ih => exact .cons (.inr rfl) ih

/-- What has no space in it stood there before. -/
theorem exists_append (h : Blanked text (front ++ back)) (hspace : ' ' ∉ front) :
    ∃ rest, text = front ++ rest := by
  induction front generalizing text with
  | nil => exact ⟨text, rfl⟩
  | cons c front ih =>
    obtain ⟨hc, hspace⟩ := not_or.1 (mt List.mem_cons.2 hspace)
    obtain ⟨d, text, hd, htext, rfl⟩ := List.forall₂_cons_right_iff.1 h
    obtain ⟨rest, rfl⟩ := ih htext hspace
    obtain rfl : c = d := hd.resolve_right (Ne.symm hc)
    exact ⟨rest, rfl⟩

end Blanked

end Text

namespace Piece

/-- Whether a piece is passed over though it is no blank. -/
def isIgnored : Piece → Bool
  | comment _ | stray _ => true
  | _ => false

/-- The text of a piece, with spaces written over it if the piece is ignored. -/
def blankedText (p : Piece) : List Char :=
  if p.isIgnored then List.replicate p.text.length ' ' else p.text

/-- The pieces that stand where a piece stood. -/
def blanked (p : Piece) : List Piece :=
  if p.isIgnored then List.replicate p.text.length (blank ' ') else [p]

theorem blanked_text_blankedText (p : Piece) : Text.Blanked p.text p.blankedText := by
  unfold blankedText
  split
  · exact .replicate p.text
  · exact .refl p.text

/-! ### What stands in front of spaces -/

/-- A token stands where it stood if spaces are written over some of the text behind it. -/
theorem Stands.of_blanked {data : Token.Data} {text rest rest' : List Char}
    (h : (token data text).Stands rest) (hblanked : Text.Blanked rest rest') :
    (token data text).Stands rest' := by
  have lexeme : Lexeme data text := by
    cases h.fits with
    | token lexeme => exact lexeme
  refine ⟨.token lexeme, fun q after hgreedy hq heq => ⟨rfl, ?_⟩⟩
  have hall : Text.Blanked (text ++ rest) (q.text ++ after) := by
    rw [heq]
    exact (Text.Blanked.refl text).append hblanked
  cases hq with
  | @token found text' _ lexeme' =>
    by_cases hspace : ' ' ∈ text'
    · -- only a string has a space in it, and the token starts as a string does
      obtain ⟨body', rfl, no_quote'⟩ := lexeme'.eq_string_of_mem hspace rfl (by decide)
      have hmem : '"' ∈ text := by
        obtain ⟨first, front, rfl⟩ := List.exists_cons_of_ne_nil lexeme.ne_nil
        obtain ⟨rfl, -⟩ := List.cons.inj heq
        exact List.mem_cons_self
      obtain ⟨body, rfl, no_quote⟩ := lexeme.eq_string_of_mem hmem rfl (by decide)
      have hreads := Cursor.reads_string (c := .ofText ('"' :: (body ++ '"' :: rest'))) rfl no_quote
      have hafter : '"' :: (body ++ '"' :: rest') = '"' :: (body' ++ '"' :: after) := by
        simpa [Piece.text] using heq.symm
      have hreads' := Cursor.reads_string (c := .ofText ('"' :: (body ++ '"' :: rest'))) hafter
        no_quote'
      have hsame := congrArg Piece.text (hreads'.unique hreads)
      exact Nat.le_of_eq (congrArg List.length hsame)
    · -- the longer token would have stood here before
      obtain ⟨rest₀, hrest₀⟩ := hall.exists_append hspace
      exact (h.longest (.token found text') rest₀ rfl (.token lexeme') hrest₀.symm).2
  | comment no_lineFeed ends =>
    -- the two slashes were there before, so that a comment stood here
    have hall' : Text.Blanked (text ++ rest) (['/', '/'] ++ _) := hall
    obtain ⟨rest₀, hrest₀⟩ := hall'.exists_append (by decide)
    obtain ⟨body, after₀, -, -, -, hreads⟩ :=
      Cursor.exists_reads_comment (c := .ofText (text ++ rest)) hrest₀
    cases ((Cursor.stands_iff rfl).1 h).unique hreads
  | _ => cases hgreedy

theorem cut_replicate_blank {source : List Char} {ps : List Piece} (h : Cut source ps) (n : Nat) :
    Cut (List.replicate n ' ' ++ source) (List.replicate n (blank ' ') ++ ps) := by
  induction n with
  | zero => exact h
  | succ n ih => exact .cons (stands_blank rfl _) ih

/-- The cut of a source with spaces written over what is ignored in it. -/
theorem Cut.flatMap_blanked {source : List Char} {ps : List Piece} (h : Cut source ps) :
    Cut (ps.flatMap blankedText) (ps.flatMap blanked) ∧
      Text.Blanked source (ps.flatMap blankedText) := by
  induction h with
  | nil => exact ⟨.nil, .nil⟩
  | @cons p rest ps stands more ih =>
    obtain ⟨hcut, hblanked⟩ := ih
    refine ⟨?_, p.blanked_text_blankedText.append hblanked⟩
    rw [List.flatMap_cons, List.flatMap_cons]
    cases p with
    | token data text => exact .cons (stands.of_blanked hblanked) hcut
    | blank c =>
      cases stands.fits with
      | blank isBlank => exact .cons (stands_blank isBlank _) hcut
    | comment text => exact cut_replicate_blank hcut _
    | stray c => exact cut_replicate_blank hcut 1
    | openString text =>
      -- nothing stands behind an open string
      cases stands.fits with
      | openString no_quote =>
        obtain rfl := cut_nil_iff.1 more
        exact .cons stands .nil

/-! ### What is made of the pieces -/

theorem flatMap_text_blanked (p : Piece) : p.blanked.flatMap text = p.blankedText := by
  unfold blanked blankedText
  split
  · generalize p.text.length = n
    simp [List.flatMap_replicate, text]
  · simp

/-- Nothing that is ignored has a line feed in it, so none is written over. -/
theorem Fits.lineFeeds_blankedText {p : Piece} {rest : List Char} (h : p.Fits rest) :
    Text.lineFeeds p.blankedText = Text.lineFeeds p.text := by
  have hblank (n : Nat) : Text.lineFeeds (List.replicate n ' ') = 0 :=
    List.count_eq_zero.2 fun hmem => by simp at hmem
  cases p with
  | comment text => exact (hblank _).trans h.lineFeeds_comment.symm
  | stray c => exact (hblank 1).trans h.lineFeeds_stray.symm
  | _ => rfl

theorem Cut.lineFeeds_blankedText {source : List Char} {ps : List Piece} (h : Cut source ps) :
    Text.lineFeeds (ps.flatMap blankedText) = Text.lineFeeds source := by
  induction h with
  | nil => rfl
  | cons stands more ih =>
    rw [List.flatMap_cons, Text.lineFeeds_append, Text.lineFeeds_append,
      stands.fits.lineFeeds_blankedText, ih]

/-- What is made of the pieces with spaces written over some of them, if nothing is made of a
space. -/
theorem Cut.filterMap_placed_blanked {α : Type} {f : Piece × Nat → Option α}
    (hf : ∀ line, f (blank ' ', line) = none) {source : List Char} {ps : List Piece}
    (h : Cut source ps) (line : Nat) : (placed line (ps.flatMap blanked)).filterMap f =
      (placed line ps).filterMap fun p => if p.1.isIgnored then none else f p := by
  induction h generalizing line with
  | nil => rfl
  | @cons p rest ps stands more ih =>
    rw [List.flatMap_cons, placed_append, flatMap_text_blanked, stands.fits.lineFeeds_blankedText,
      List.filterMap_append, ih, placed, ← List.singleton_append, List.filterMap_append]
    congr 1
    by_cases hp : p.isIgnored
    · have hnone : ∀ q ∈ placed line p.blanked, f q = none := by
        rintro ⟨q, l⟩ hq
        have hmem := mem_of_mem_placed hq
        rw [blanked, if_pos hp] at hmem
        rw [List.eq_of_mem_replicate hmem, hf]
      rw [List.filterMap_eq_nil_iff.2 hnone]
      simp [hp]
    · have hsame : placed line p.blanked = [(p, line + Text.lineFeeds p.text)] := by
        rw [blanked, if_neg hp]
        rfl
      rw [hsame]
      cases hf : f (p, line + Text.lineFeeds p.text) <;> simp [hp, hf]

end Piece

/-- Whether a fault is that a string is left open. -/
def LexicalFault.isUnterminated : LexicalFault → Bool
  | unexpectedCharacter .. => false
  | unterminatedString _ => true

namespace TokenStream

open Piece (Cut placed token? fault?)

/-- Input that is passed over is as good as blank. A source is cut in exactly one way, and its
faults are the stray characters and the open string of that cut. With a space written over each
stray character and each character of a comment, the same tokens are scanned, on the same lines, and
the only fault left is that of a string that is left open, if there is one, on the same line. -/
theorem scan_blanked (source : String) (r : Report) :
    ∃ ps, (∀ qs, Cut source.toList qs ↔ qs = ps) ∧
      faultsOf source = (placed 1 ps).filterMap fault? ∧
      let blanked := String.ofList (ps.flatMap Piece.blankedText)
      let faults := (faultsOf source).filter LexicalFault.isUnterminated
      scan blanked r = ((scan source r).1, r.addAll (faults.map LexicalFault.issue)) ∧
        faultsOf blanked = faults := by
  obtain ⟨ps, hps⟩ := Piece.existsUnique_cut source.toList
  have hcut : Cut source.toList ps := (hps ps).2 rfl
  obtain ⟨htokens, hfaults⟩ := scan_of_cut hcut
  refine ⟨ps, hps, hfaults, ?_⟩
  intro blanked faults
  have hcut' : Cut blanked.toList (ps.flatMap Piece.blanked) := by
    rw [String.toList_ofList]
    exact hcut.flatMap_blanked.1
  obtain ⟨htokens', hfaults'⟩ := scan_of_cut hcut'
  have htoken : ∀ p : Piece × Nat, (if p.1.isIgnored then none else token? p) = token? p := by
    rintro ⟨_ | _ | _ | _ | _, line⟩ <;> rfl
  have hfault : ∀ p : Piece × Nat, (if p.1.isIgnored then none else fault? p) =
      (fault? p).filter LexicalFault.isUnterminated := by
    rintro ⟨_ | _ | _ | _ | _, line⟩ <;> rfl
  have hlines : Text.lineFeeds blanked.toList = Text.lineFeeds source.toList := by
    rw [String.toList_ofList, hcut.lineFeeds_blankedText]
  have htokens_eq : ∀ r, (scan blanked r).1 = (scan source r).1 := by
    intro r
    rw [htokens', htokens, hcut.filterMap_placed_blanked fun _ => rfl, hlines, funext htoken]
  have hfaults_eq : faultsOf blanked = faults := by
    rw [hfaults', hcut.filterMap_placed_blanked fun _ => rfl, funext hfault, ← List.filter_filterMap,
      ← hfaults]
  refine ⟨Prod.ext (htokens_eq r) ?_, hfaults_eq⟩
  rw [scan_eq, hfaults_eq]

-- The stray character keeps the operators around it apart, and so does the space.
example : (scan "!@= // \"" .empty).1 = (scan "! =     " .empty).1 := by decide +kernel

end TokenStream

end LoxCalc
