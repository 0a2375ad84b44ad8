import LoxCalc.Proofs.Token.Cut

/-!
# Line breaks

Nothing that is read before a line feed depends on what comes behind it, unless a string is still
open there. So the cut of two texts with a line feed between them is the cut of the one with the cut
of the other behind it. Main statement: `scan_lineBreak`, the tokens and the faults of such a source
are those of the first text and then those of the second, as many lines further down.
-/

namespace LoxCalc

/-- A token some lines further down. -/
def Token.below (n : Nat) (t : Token) : Token := { t with line := t.line + n }

/-- A fault some lines further down. -/
def LexicalFault.below (n : Nat) : LexicalFault → LexicalFault
  | unexpectedCharacter c line => unexpectedCharacter c (line + n)
  | unterminatedString line => unterminatedString (line + n)

namespace Piece

/-! ### Pieces on their lines -/

theorem placed_append (line : Nat) (ps qs : List Piece) : placed line (ps ++ qs) =
    placed line ps ++ placed (line + Text.lineFeeds (ps.flatMap text)) qs := by
  induction ps generalizing line with
  | nil => rfl
  | cons p ps ih =>
    rw [List.cons_append, placed, ih, List.flatMap_cons, Text.lineFeeds_append, placed,
      List.cons_append, Nat.add_assoc]

theorem placed_add (line n : Nat) (ps : List Piece) :
    placed (line + n) ps = (placed line ps).map fun (p, l) => (p, l + n) := by
  induction ps generalizing line with
  | nil => rfl
  | cons p ps ih =>
    rw [placed, placed, Nat.add_right_comm, ih]
    rfl

theorem token?_add (p : Piece) (line n : Nat) :
    token? (p, line + n) = (token? (p, line)).map (Token.below n) := by
  cases p <;> rfl

theorem fault?_add (p : Piece) (line n : Nat) :
    fault? (p, line + n) = (fault? (p, line)).map (LexicalFault.below n) := by
  cases p <;> rfl

/-- What is made of pieces some lines further down, if it is made of each piece with its line. -/
theorem filterMap_placed_add {α : Type} {f : Piece × Nat → Option α} {g : α → α} {n : Nat}
    (hf : ∀ p line, f (p, line + n) = (f (p, line)).map g) (line : Nat) (ps : List Piece) :
    (placed (line + n) ps).filterMap f = ((placed line ps).filterMap f).map g := by
  rw [placed_add, List.filterMap_map, List.map_filterMap]
  congr 1
  funext ⟨p, l⟩
  exact hf p l

/-- What is made of the pieces of two texts with a line feed between them. -/
theorem filterMap_placed_lineFeed {α : Type} {f : Piece × Nat → Option α} {g : Nat → α → α}
    (hf : ∀ p line n, f (p, line + n) = (f (p, line)).map (g n))
    (hblank : ∀ line, f (.blank '\n', line) = none) {ps qs : List Piece} {n : Nat}
    (hn : n = Text.lineFeeds (ps.flatMap text) + 1) :
    (placed 1 (ps ++ .blank '\n' :: qs)).filterMap f =
      (placed 1 ps).filterMap f ++ ((placed 1 qs).filterMap f).map (g n) := by
  have hline : 1 + Text.lineFeeds (ps.flatMap text) + Text.lineFeeds (text (.blank '\n')) =
      1 + n := by
    rw [hn, Nat.add_assoc]
    rfl
  rw [placed_append, List.filterMap_append, placed, hline, List.filterMap_cons_none (hblank _),
    filterMap_placed_add fun p line => hf p line n]

/-- A string that is not closed is a fault. -/
theorem exists_unterminatedString {ps : List Piece} {text : List Char}
    (h : openString text ∈ ps) (line : Nat) :
    ∃ l, .unterminatedString l ∈ (placed line ps).filterMap fault? := by
  induction ps generalizing line with
  | nil => simp at h
  | cons p ps ih =>
    rw [placed]
    rcases List.mem_cons.1 h with rfl | h
    · exact ⟨_, List.mem_filterMap.2 ⟨_, List.mem_cons_self, rfl⟩⟩
    · obtain ⟨l, hl⟩ := ih h (line + Text.lineFeeds p.text)
      obtain ⟨q, hq, hfault⟩ := List.mem_filterMap.1 hl
      exact ⟨l, List.mem_filterMap.2 ⟨q, List.mem_cons_of_mem _ hq, hfault⟩⟩

end Piece

/-! ### In front of a line feed -/

namespace Piece

/-- What fits before a text with a line feed behind it fits before the text. -/
theorem Fits.of_append_lineFeed {q : Piece} {rest behind : List Char} (hq : q.isGreedy)
    (h : q.Fits (rest ++ '\n' :: behind)) : q.Fits rest := by
  generalize hall : rest ++ '\n' :: behind = all at h
  cases h with
  | token lexeme => exact .token lexeme
  | comment no_lineFeed ends =>
    refine .comment no_lineFeed fun c hc => ends c ?_
    rw [← hall, List.head?_append, hc]
    rfl
  | _ => simp [isGreedy] at hq

/-- What fits before a text fits there with a line feed behind the text, unless it is a string that
is still open. -/
theorem Fits.append_lineFeed {p : Piece} {rest : List Char} (h : p.Fits rest)
    (hclosed : ∀ text, p ≠ .openString text) (behind : List Char) :
    p.Fits (rest ++ '\n' :: behind) := by
  cases h with
  | token lexeme => exact .token lexeme
  | blank isBlank => exact .blank isBlank
  | comment no_lineFeed ends =>
    refine .comment no_lineFeed fun c hc => ?_
    cases rest with
    | nil => simpa using hc.symm
    | cons x rest => exact ends c hc
  | stray no_token not_blank => exact .stray no_token not_blank
  | openString no_quote => exact absurd rfl (hclosed _)

/-- A text in which a string starts and does not end has that string first. -/
theorem Stands.eq_openString {p : Piece} {rest body : List Char} (h : p.Stands rest)
    (htext : p.text ++ rest = '"' :: body) (no_quote : '"' ∉ body) :
    p = .openString ('"' :: body) :=
  ((Cursor.stands_iff (c := .ofText (p.text ++ rest)) rfl).1 h).unique
    (Cursor.reads_openString htext no_quote)

/-- What stands before a text stands there with a line feed behind the text, unless it is a string
that is still open. -/
theorem Stands.append_lineFeed {p : Piece} {rest : List Char} (h : p.Stands rest)
    (hclosed : ∀ text, p ≠ .openString text) (behind : List Char) :
    p.Stands (rest ++ '\n' :: behind) := by
  refine ⟨h.fits.append_lineFeed hclosed behind, fun q after hgreedy hq heq => ?_⟩
  rw [← List.append_assoc] at heq
  rcases List.append_eq_append_iff.1 heq with ⟨more, hmore, rfl⟩ | ⟨more, hmore, hafter⟩
  · exact h.longest q more hgreedy (hq.of_append_lineFeed hgreedy) hmore.symm
  cases more with
  | nil =>
    rw [List.append_nil] at hmore
    have hq' : q.Fits ([] ++ '\n' :: behind) := hafter ▸ hq
    exact h.longest q [] hgreedy (hq'.of_append_lineFeed hgreedy) (by rw [List.append_nil, hmore])
  | cons c more =>
    -- the piece goes over the line feed, so it is a string, which the text leaves open
    obtain ⟨rfl, -⟩ := List.cons.inj hafter
    have hmem : '\n' ∈ q.text := by simp [hmore]
    cases hq with
    | token lexeme =>
      obtain ⟨body, hbody, no_quote⟩ := lexeme.eq_string_of_mem hmem rfl (by decide)
      have hne : p.text ++ rest ≠ [] := by simp [h.fits.text_ne_nil]
      obtain ⟨x, front, hfront⟩ := List.exists_cons_of_ne_nil hne
      rw [text, hbody, hfront, List.cons_append] at hmore
      obtain ⟨rfl, hrest⟩ := List.cons.inj hmore
      have hdrop := congrArg List.dropLast hrest
      rw [List.dropLast_concat, List.dropLast_append_of_ne_nil (by simp)] at hdrop
      have no_quote : '"' ∉ front := fun hquote =>
        no_quote (hdrop ▸ List.mem_append_left _ hquote)
      exact absurd (h.eq_openString hfront no_quote) (hclosed _)
    | comment no_lineFeed ends => simp [text, no_lineFeed] at hmem
    | _ => simp [isGreedy] at hgreedy

/-- The cuts of two texts make a cut of the texts with a line feed between them, unless a string is
open there. -/
theorem Cut.append_lineFeed {source behind : List Char} {ps qs : List Piece} (h : Cut source ps)
    (hclosed : ∀ text, .openString text ∉ ps) (hbehind : Cut behind qs) :
    Cut (source ++ '\n' :: behind) (ps ++ .blank '\n' :: qs) := by
  induction h with
  | nil =>
    have hblank := Cursor.reads_blank (c := .ofText ('\n' :: behind)) rfl (by decide)
    exact .cons (p := .blank '\n') ((Cursor.stands_iff rfl).2 hblank) hbehind
  | @cons p rest ps stands more ih =>
    rw [List.append_assoc]
    refine .cons (stands.append_lineFeed (fun text hp => ?_) behind) (ih fun text hmem => ?_)
    · exact hclosed text (hp ▸ List.mem_cons_self)
    · exact hclosed text (List.mem_cons_of_mem _ hmem)

end Piece

namespace TokenStream

open Piece (Cut placed token? fault?)

/-- The faults of a source. -/
def faultsOf (source : String) : List LexicalFault := (ofString source).drain.2.lexicalFaults

theorem scan_eq (source : String) (r : Report) : scan source r =
    ((ofString source).drain.1, r.addAll ((faultsOf source).map LexicalFault.issue)) := rfl

/-- The tokens and the faults of a source that is cut. -/
theorem scan_of_cut {source : String} {ps : List Piece} (h : Cut source.toList ps) :
    (∀ r, (scan source r).1 =
      (placed 1 ps).filterMap token? ++ [.endOn (1 + Text.lineFeeds source.toList)]) ∧
    faultsOf source = (placed 1 ps).filterMap fault? := by
  obtain ⟨htokens, hfaults⟩ := drain_of_cut h (s := ofString source) rfl rfl
  exact ⟨fun r => htokens, hfaults⟩

/-- A line feed after a text in which no string is left open cuts the text off from what follows.
The tokens are those of the text without its end of input, and then those of what follows; the
faults are those of the text, and then those of what follows; and all that follows is as many lines
further down as the text and the line feed take. -/
theorem scan_lineBreak (a b : String) (h : ∀ line, .unterminatedString line ∉ faultsOf a)
    (r : Report) :
    let n := Text.lineFeeds a.toList + 1
    (scan a r).1 = (scan a r).1.dropLast ++ [.endOn n] ∧
    (scan (a ++ "\n" ++ b) r).1 = (scan a r).1.dropLast ++ (scan b r).1.map (Token.below n) ∧
    faultsOf (a ++ "\n" ++ b) = faultsOf a ++ (faultsOf b).map (LexicalFault.below n) ∧
    (scan (a ++ "\n" ++ b) r).2 =
      (scan a r).2.addAll (((faultsOf b).map (LexicalFault.below n)).map LexicalFault.issue) := by
  intro n
  obtain ⟨ps, hps⟩ := Piece.existsUnique_cut a.toList
  obtain ⟨qs, hqs⟩ := Piece.existsUnique_cut b.toList
  have hcut : Cut a.toList ps := (hps ps).2 rfl
  have hcut' : Cut b.toList qs := (hqs qs).2 rfl
  have hclosed : ∀ text, .openString text ∉ ps := by
    intro text hmem
    obtain ⟨line, hline⟩ := Piece.exists_unterminatedString hmem 1
    exact h line ((scan_of_cut hcut).2 ▸ hline)
  have hjoin : Cut (a ++ "\n" ++ b).toList (ps ++ .blank '\n' :: qs) := by
    have htext : (a ++ "\n" ++ b).toList = a.toList ++ '\n' :: b.toList := by simp
    rw [htext]
    exact hcut.append_lineFeed hclosed hcut'
  obtain ⟨htokens, hfaults⟩ := scan_of_cut hcut
  obtain ⟨htokens', hfaults'⟩ := scan_of_cut hcut'
  obtain ⟨hjoin_tokens, hjoin_faults⟩ := scan_of_cut hjoin
  have htext := Piece.flatMap_text_of_cut hcut
  have hfaults_eq : faultsOf (a ++ "\n" ++ b) =
      faultsOf a ++ (faultsOf b).map (LexicalFault.below n) := by
    rw [hjoin_faults, hfaults, hfaults',
      Piece.filterMap_placed_lineFeed Piece.fault?_add (fun _ => rfl) (by rw [htext])]
  have hend : (Token.endOn (1 + Text.lineFeeds b.toList)).below n =
      .endOn (1 + Text.lineFeeds (a ++ "\n" ++ b).toList) := by
    simp [Token.below, Token.endOn, Text.lineFeeds, n]
    omega
  refine ⟨?_, ?_, hfaults_eq, ?_⟩
  · rw [htokens, List.dropLast_concat, Nat.add_comm 1]
  · rw [hjoin_tokens, htokens, htokens', List.dropLast_concat, List.map_append,
      Piece.filterMap_placed_lineFeed Piece.token?_add (fun _ => rfl) (by rw [htext]),
      List.append_assoc, ← hend]
    rfl
  · rw [scan_eq, scan_eq, hfaults_eq, List.map_append, Report.addAll_append]

/-- A quote in a comment opens no string, so what follows on the next line is read by itself. -/
theorem scan_lineBreak_comment :
    (∀ line, .unterminatedString line ∉ faultsOf "1 // \"") ∧
      (scan ("1 // \"" ++ "\n" ++ "@\"") .empty).1 =
        (scan "1 // \"" .empty).1.dropLast ++ (scan "@\"" .empty).1.map (Token.below 1) ∧
      faultsOf ("1 // \"" ++ "\n" ++ "@\"") =
        [.unexpectedCharacter '@' 2, .unterminatedString 2] := by
  have hfirst : faultsOf "1 // \"" = [] := by decide +kernel
  have hsecond : faultsOf "@\"" = [.unexpectedCharacter '@' 1, .unterminatedString 1] := by
    decide +kernel
  have hclosed : ∀ line, .unterminatedString line ∉ faultsOf "1 // \"" := by simp [hfirst]
  obtain ⟨-, htokens, hfaults, -⟩ := scan_lineBreak "1 // \"" "@\"" hclosed .empty
  rw [hfirst, hsecond] at hfaults
  exact ⟨hclosed, htokens, hfaults⟩

end TokenStream

end LoxCalc
