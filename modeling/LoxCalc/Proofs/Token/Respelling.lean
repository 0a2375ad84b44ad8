import LoxCalc.Proofs.Token.LineBreak

/-!
# Spelling tokens again

The lexeme of a token says all that the token means. A blank behind it cuts it off from whatever
follows, so that tokens from anywhere can be put into one source by writing their lexemes with
blanks between them. Main statement: `scan_respelled`, scanning such a source gives the tokens back.
-/

namespace LoxCalc

/-! ### In front of a blank -/

namespace Cursor

section Blank

variable {c : Cursor} {text rest : List Char}

theorem not_continuesWord_of_isBlank {x : Char} (h : Piece.isBlank x) : ¬Piece.continuesWord x := by
  intro hword
  rcases Bool.or_eq_true_iff.1 hword with hstarts | hdigit
  · exact (not_isBlank_of_startsWord hstarts).1 h
  · exact (not_isBlank_of_isDigit hdigit).1 h

theorem not_startsFraction_of_isBlank (hrest : ∀ y ∈ rest.head?, Piece.isBlank y) :
    ¬StartsFraction rest := by
  rintro ⟨d, after, rfl, -⟩
  exact absurd (hrest '.' rfl) (by decide)

theorem reads_symbol_of_isBlank {s : Symbol} (h : c.rest = s.text.toList ++ rest)
    (hrest : ∀ y ∈ rest.head?, Piece.isBlank y) :
    c.Reads (.token (.symbol s) s.text.toList) := by
  rcases s.text_cases with ⟨first, htext, hs⟩ | ⟨first, t, htext, hs, hlonger⟩
  · rw [htext] at h ⊢
    have hslash : rest.head? ≠ some '/' := fun hhead => absurd (hrest '/' hhead) (by decide)
    rcases reads_symbol h hs fun _ => hslash with ⟨longer, after, -, rfl, -⟩ | ⟨hreads, -⟩
    · exact absurd (hrest '=' rfl) (by decide)
    · exact hreads
  · rw [htext] at h ⊢
    rcases reads_symbol h hs (by simp) with ⟨longer, after, hlonger', -, hreads⟩ | ⟨-, hnone⟩
    · obtain rfl := Option.some.inj (hlonger.symm.trans hlonger')
      exact hreads
    · exact absurd rfl (hnone s hlonger)

/-- A lexeme is read as far as the next blank, and no further. -/
theorem reads_of_lexeme {data : Token.Data} (lexeme : Lexeme data text) (h : c.rest = text ++ rest)
    (hrest : ∀ y ∈ rest.head?, Piece.isBlank y) : c.Reads (.token data text) := by
  have hdigit : ∀ y ∈ rest.head?, ¬y.isDigit := fun y hy hd =>
    (not_isBlank_of_isDigit hd).1 (hrest y hy)
  cases lexeme with
  | symbol s => exact reads_symbol_of_isBlank h hrest
  | string no_quote => exact reads_string (by simpa using h) no_quote
  | integer nonempty isDigit =>
    exact reads_integer h nonempty isDigit hdigit (not_startsFraction_of_isBlank hrest)
  | decimal nonempty isDigit fraction_nonempty fraction_isDigit =>
    exact reads_decimal (by simpa using h) nonempty isDigit fraction_nonempty fraction_isDigit
      hdigit
  | word starts continues =>
    exact reads_word h starts continues fun y hy => not_continuesWord_of_isBlank (hrest y hy)

end Blank

end Cursor

/-- A text has one meaning. -/
theorem Lexeme.data_unique {data data' : Token.Data} {text : List Char} (h : Lexeme data text)
    (h' : Lexeme data' text) : data = data' := by
  have hrest : (Cursor.ofText text).rest = text ++ [] := (List.append_nil text).symm
  have hreads := Cursor.reads_of_lexeme h hrest (by simp)
  have hreads' := Cursor.reads_of_lexeme h' hrest (by simp)
  exact (Piece.token.inj (hreads.unique hreads')).1

namespace Piece

theorem stands_of_lexeme {data : Token.Data} {text rest : List Char} (lexeme : Lexeme data text)
    (hrest : ∀ y ∈ rest.head?, isBlank y) : (token data text).Stands rest :=
  (Cursor.stands_iff (c := .ofText (text ++ rest)) rfl).2 (Cursor.reads_of_lexeme lexeme rfl hrest)

theorem stands_blank {c : Char} (h : isBlank c) (rest : List Char) : (blank c).Stands rest :=
  (Cursor.stands_iff (c := .ofText (c :: rest)) rfl).2 (Cursor.reads_blank rfl h)

/-- A symbol that no longer one and no comment starts with stands before any text. -/
theorem stands_symbol {first : Char} {s : Symbol} (h : Symbol.ofChar? first = some s)
    (hlonger : s.withEqual? = none) (hcomment : first ≠ '/') (rest : List Char) :
    (token (.symbol s) [first]).Stands rest := by
  have hrest : (Cursor.ofText (first :: rest)).rest = first :: rest := rfl
  refine (Cursor.stands_iff hrest).2 ?_
  rcases Cursor.reads_symbol hrest h (absurd · hcomment) with
    ⟨longer, after, hsome, -⟩ | ⟨hreads, -⟩
  · cases hlonger.symm.trans hsome
  · exact hreads

/-! ### Lexemes of a source -/

theorem mem_of_mem_placed {p : Piece} {ps : List Piece} {line l : Nat}
    (h : (p, l) ∈ placed line ps) : p ∈ ps := by
  induction ps generalizing line with
  | nil => simp [placed] at h
  | cons q ps ih =>
    rcases List.mem_cons.1 h with heq | h
    · exact (Prod.mk.inj heq).1 ▸ List.mem_cons_self
    · exact List.mem_cons_of_mem _ (ih h)

/-- The pieces of a cut fit where they are. -/
theorem Cut.exists_fits {source : List Char} {ps : List Piece} (h : Cut source ps) {p : Piece}
    (hp : p ∈ ps) : ∃ rest, p.Fits rest := by
  induction h with
  | nil => simp at hp
  | @cons q rest ps stands more ih =>
    rcases List.mem_cons.1 hp with rfl | hp
    · exact ⟨rest, stands.fits⟩
    · exact ih hp

end Piece

namespace Token

/-- Whether the lexeme of a token says what the token means. -/
def IsSpelled (t : Token) : Prop := Lexeme t.data t.lexeme.toList

theorem IsSpelled.not_isEnd {t : Token} (h : t.IsSpelled) : ¬t.isEnd := fun hend =>
  Lexeme.kind_ne_endOfInput h (of_decide_eq_true hend)

/-- The lexemes of tokens that were read say what the tokens mean. -/
theorem isSpelled_of_mem_cut {source : List Char} {ps : List Piece} (hcut : Piece.Cut source ps)
    {line : Nat} {t : Token} (h : t ∈ (Piece.placed line ps).filterMap Piece.token?) :
    t.IsSpelled := by
  obtain ⟨⟨p, l⟩, hp, htoken⟩ := List.mem_filterMap.1 h
  obtain ⟨rest, hfits⟩ := hcut.exists_fits (Piece.mem_of_mem_placed hp)
  cases hfits with
  | token lexeme =>
    obtain rfl := Option.some.inj htoken
    rwa [IsSpelled, String.toList_ofList]
  | _ => cases htoken

/-- The piece that a token is read from. -/
def piece (t : Token) : Piece := .token t.data t.lexeme.toList

/-- The lexemes of some tokens with a blank between each two. -/
def spaced (tokens : List Token) : String := " ".intercalate (tokens.map lexeme)

/-- The pieces of some tokens with a blank between each two. -/
def spacedPieces (tokens : List Token) : List Piece := (tokens.map piece).intersperse (.blank ' ')

/-- Tokens on the lines that they end on if their lexemes follow each other from the start of a
line. -/
def relined (line : Nat) (tokens : List Token) : List Token :=
  tokens.mapIdx fun i t =>
    { t with line := line + Text.lineFeeds ((tokens.take (i + 1)).flatMap (·.lexeme.toList)) }

@[simp] theorem token?_piece (t : Token) (line : Nat) :
    Piece.token? (t.piece, line) = some { t with line } := by
  simp [piece, Piece.token?]

theorem toList_spaced_cons_cons (t u : Token) (tokens : List Token) :
    (spaced (t :: u :: tokens)).toList =
      t.lexeme.toList ++ ' ' :: (spaced (u :: tokens)).toList := by
  simp [spaced, String.toList_intercalate]

theorem relined_cons (line : Nat) (t : Token) (tokens : List Token) :
    relined line (t :: tokens) = { t with line := line + Text.lineFeeds t.lexeme.toList } ::
      relined (line + Text.lineFeeds t.lexeme.toList) tokens := by
  rw [relined, List.mapIdx_cons, relined]
  simp [Text.lineFeeds, Nat.add_assoc]

/-- Tokens with blanks between them are cut into themselves and the blanks. -/
theorem cut_spaced {tokens : List Token} (h : ∀ t ∈ tokens, t.IsSpelled) :
    Piece.Cut (spaced tokens).toList (spacedPieces tokens) := by
  induction tokens with
  | nil => exact .nil
  | cons t tokens ih =>
    obtain ⟨ht, htokens⟩ := List.forall_mem_cons.1 h
    cases tokens with
    | nil =>
      have htext : (spaced [t]).toList = t.lexeme.toList ++ [] := by
        simp [spaced]
      rw [htext]
      exact .cons (Piece.stands_of_lexeme ht (by simp)) .nil
    | cons u tokens =>
      rw [toList_spaced_cons_cons]
      have hblank := Piece.stands_blank (c := ' ') rfl (spaced (u :: tokens)).toList
      exact .cons (Piece.stands_of_lexeme ht (by simp [Piece.isBlank])) (.cons hblank (ih htokens))

/-- The blank behind a token takes no line. -/
theorem placed_spacedPieces (line : Nat) (t u : Token) (tokens : List Token) :
    let l := line + Text.lineFeeds t.lexeme.toList
    Piece.placed line (spacedPieces (t :: u :: tokens)) =
      (t.piece, l) :: (.blank ' ', l) :: Piece.placed l (spacedPieces (u :: tokens)) := rfl

theorem filterMap_token?_spacedPieces (line : Nat) (tokens : List Token) :
    (Piece.placed line (spacedPieces tokens)).filterMap Piece.token? = relined line tokens := by
  induction tokens generalizing line with
  | nil => rfl
  | cons t tokens ih =>
    rw [relined_cons]
    cases tokens with
    | nil =>
      exact List.filterMap_cons_some (token?_piece t _)
    | cons u tokens =>
      rw [placed_spacedPieces, List.filterMap_cons_some (token?_piece t _),
        List.filterMap_cons_none rfl, ih]

theorem filterMap_fault?_spacedPieces (line : Nat) (tokens : List Token) :
    (Piece.placed line (spacedPieces tokens)).filterMap Piece.fault? = [] := by
  induction tokens generalizing line with
  | nil => rfl
  | cons t tokens ih =>
    cases tokens with
    | nil => rfl
    | cons u tokens =>
      rw [placed_spacedPieces, List.filterMap_cons_none rfl, List.filterMap_cons_none rfl, ih]

end Token

namespace TokenStream

open Piece (Cut placed token? fault?)

theorem isSpelled_of_mem_scan {source : String} {r : Report} {t : Token}
    (h : t ∈ (scan source r).1) (hend : ¬t.isEnd) : t.IsSpelled := by
  obtain ⟨ps, hps⟩ := Piece.existsUnique_cut source.toList
  have hcut : Cut source.toList ps := (hps ps).2 rfl
  rw [(scan_of_cut hcut).1 r] at h
  rcases List.mem_append.1 h with h | h
  · exact Token.isSpelled_of_mem_cut hcut h
  · obtain rfl := List.mem_singleton.1 h
    exact absurd rfl hend

/-- Tokens read from any sources are read again from their lexemes with blanks between them, and
nothing else is: no token and no fault. Only their lines are new, which count the line feeds in the
lexemes so far. -/
theorem scan_respelled (tokens : List Token)
    (h : ∀ t ∈ tokens, ¬t.isEnd ∧ ∃ source r, t ∈ (scan source r).1) (r : Report) :
    let source := " ".intercalate (tokens.map Token.lexeme)
    scan source r =
      (tokens.mapIdx (fun i t => { t with
          line := 1 + Text.lineFeeds ((tokens.take (i + 1)).flatMap (·.lexeme.toList)) }) ++
        [.endOn (1 + Text.lineFeeds source.toList)], r) := by
  intro source
  have hspelled : ∀ t ∈ tokens, t.IsSpelled := by
    intro t ht
    obtain ⟨hend, source', r', hmem⟩ := h t ht
    exact isSpelled_of_mem_scan hmem hend
  have hcut : Cut source.toList (Token.spacedPieces tokens) := Token.cut_spaced hspelled
  obtain ⟨htokens, hfaults⟩ := scan_of_cut hcut
  rw [Token.filterMap_token?_spacedPieces] at htokens
  rw [Token.filterMap_fault?_spacedPieces] at hfaults
  refine Prod.ext (htokens r) ?_
  rw [scan_eq, hfaults]
  exact r.addAll_nil

/-- Blanks keep a point from becoming part of a number and two slashes from becoming a comment, and
a string can hold anything but a quote. -/
theorem scan_respelled_slashes :
    let tokens : List Token := [⟨.number 1, "1", 3⟩, ⟨.symbol .dot, ".", 1⟩,
      ⟨.symbol .slash, "/", 1⟩, ⟨.symbol .slash, "/", 2⟩, ⟨.string "é\n//", "\"é\n//\"", 3⟩]
    (∀ t ∈ tokens, ¬t.isEnd ∧ ∃ source r, t ∈ (scan source r).1) ∧
      scan "1 . / / \"é\n//\"" .empty = ([⟨.number 1, "1", 1⟩, ⟨.symbol .dot, ".", 1⟩,
        ⟨.symbol .slash, "/", 1⟩, ⟨.symbol .slash, "/", 1⟩, ⟨.string "é\n//", "\"é\n//\"", 2⟩,
        .endOn 2], .empty) := by
  intro tokens
  have hread : ∀ t ∈ tokens, ¬t.isEnd ∧ ∃ source r, t ∈ (scan source r).1 := by
    intro t ht
    refine ⟨?_, "./ \n/ \"é\n//\" 1", .empty, ?_⟩
    · revert t
      decide +kernel
    · revert t
      decide +kernel
  refine ⟨hread, ?_⟩
  have hspaced : " ".intercalate (tokens.map Token.lexeme) = "1 . / / \"é\n//\"" := rfl
  rw [← hspaced, scan_respelled tokens hread .empty]
  decide +kernel

end TokenStream

end LoxCalc
