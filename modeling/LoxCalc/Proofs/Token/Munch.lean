import LoxCalc.Proofs.Text.Slices
import LoxCalc.Proofs.Token.Lexeme

/-!
# The longest piece

A cursor reads the piece that stands at its place. Every operation of a cursor passes some text, so
each reader is described by the text it finds and passes. Main statement: `stands_iff`, what stands
at a cursor is what `piece?` reads there.
-/

namespace LoxCalc

namespace Cursor

/-! ### What is read at a place -/

section Reading

variable {c : Cursor} {first : Char} {text digits fraction rest : List Char}

theorem bne_of_notMem {x : Char} (h : x ∉ text) : ∀ y ∈ text, (y != x) = true := by
  intro y hy
  rw [bne_iff_ne]
  rintro rfl
  exact h hy

theorem comment_eq (h : c.rest = '/' :: (text ++ rest)) (no_lineFeed : '\n' ∉ text)
    (ends : ∀ y ∈ rest.head?, y = '\n') :
    c.comment = (.comment ('/' :: '/' :: text), c.pass ('/' :: text)) := by
  have hread : ∀ y ∈ '/' :: text, (y != '\n') = true :=
    List.forall_mem_cons.2 ⟨by decide, bne_of_notMem no_lineFeed⟩
  rw [comment, span_eq h hread (by simpa using ends)]

theorem quoted_of_closed (h : c.rest = text ++ '"' :: rest) (no_quote : '"' ∉ text) :
    c.quoted = (.token (.string (String.ofList text)) ('"' :: (text ++ ['"'])),
      c.pass (text ++ ['"'])) := by
  have hclosing : (c.pass text).rest = '"' :: rest := rest_pass h
  rw [quoted, span_eq h (bne_of_notMem no_quote) (by simp)]
  dsimp only
  rw [next?_eq hclosing, pass_append]

theorem quoted_of_open (h : '"' ∉ c.rest) :
    c.quoted = (.openString ('"' :: c.rest), c.pass c.rest) := by
  have hall : c.rest = c.rest ++ [] := (List.append_nil _).symm
  have hnext : (c.pass c.rest).next? = none := by rw [next?, rest_pass hall]
  rw [quoted, span_eq hall (bne_of_notMem h) (by simp)]
  dsimp only
  rw [hnext]

/-- Whether a text goes on as a number does behind its digits: with a point and a digit. -/
def StartsFraction (text : List Char) : Prop := ∃ d after, text = '.' :: d :: after ∧ d.isDigit

theorem fraction?_eq (h : c.rest = '.' :: (fraction ++ rest)) (nonempty : fraction ≠ [])
    (isDigit : ∀ y ∈ fraction, y.isDigit) (hrest : ∀ y ∈ rest.head?, ¬y.isDigit) :
    c.fraction? = some (fraction, c.pass ('.' :: fraction)) := by
  have hpoint : (c.pass ['.']).rest = fraction ++ rest := rest_pass h
  have hspan := span_eq hpoint isDigit hrest
  rw [pass_append] at hspan
  simp only [fraction?, skip?_eq h, Option.bind_eq_bind, Option.bind_some, hspan]
  rw [if_neg (by simpa using nonempty)]
  rfl

theorem fraction?_eq_none (h : ¬StartsFraction c.rest) : c.fraction? = none := by
  by_cases hpoint : ∃ after, c.rest = '.' :: after
  · obtain ⟨after, hafter⟩ := hpoint
    have hrest : (c.pass ['.']).rest = [] ++ after := rest_pass hafter
    have hdigit : ∀ y ∈ after.head?, ¬y.isDigit := by
      intro y hy hd
      obtain ⟨behind, rfl⟩ := List.head?_eq_some_iff.1 hy
      exact h ⟨y, behind, hafter, hd⟩
    simp only [fraction?, skip?_eq hafter, Option.bind_eq_bind, Option.bind_some,
      span_eq hrest (by simp) hdigit]
    rfl
  · have hskip : c.skip? '.' = none := by
      refine skip?_eq_none fun y hy => ?_
      rintro rfl
      exact hpoint (List.head?_eq_some_iff.1 hy)
    simp [fraction?, hskip]

theorem number_of_decimal (h : c.rest = digits ++ '.' :: (fraction ++ rest))
    (isDigit : ∀ y ∈ digits, y.isDigit) (nonempty : fraction ≠ [])
    (fraction_isDigit : ∀ y ∈ fraction, y.isDigit) (hrest : ∀ y ∈ rest.head?, ¬y.isDigit) :
    c.number first = (.token (.number (Decimal.read (first :: digits) fraction))
      (first :: (digits ++ '.' :: fraction)), c.pass (digits ++ '.' :: fraction)) := by
  have hpoint : (c.pass digits).rest = '.' :: (fraction ++ rest) := rest_pass h
  rw [number, span_eq h isDigit (by simp)]
  dsimp only
  rw [fraction?_eq hpoint nonempty fraction_isDigit hrest, pass_append]

theorem number_of_integer (h : c.rest = digits ++ rest) (isDigit : ∀ y ∈ digits, y.isDigit)
    (hrest : ∀ y ∈ rest.head?, ¬y.isDigit) (hfraction : ¬StartsFraction rest) :
    c.number first = (.token (.number (Decimal.read (first :: digits) [])) (first :: digits),
      c.pass digits) := by
  rw [number, span_eq h isDigit hrest]
  dsimp only
  rw [fraction?_eq_none (by rwa [rest_pass h])]

theorem word_eq (h : c.rest = text ++ rest) (continues : ∀ y ∈ text, Piece.continuesWord y)
    (hrest : ∀ y ∈ rest.head?, ¬Piece.continuesWord y) :
    c.word first = (.token (Piece.word (first :: text)) (first :: text), c.pass text) := by
  rw [word, span_eq h continues hrest]

end Reading

/-! ### The first character decides -/

/-- Whether a piece is the one read at a cursor, and its text is what the cursor passes. -/
def Reads (c : Cursor) (p : Piece) : Prop := c.piece? = some (p, c.pass p.text)

theorem Reads.unique {c : Cursor} {p q : Piece} (hp : c.Reads p) (hq : c.Reads q) : p = q :=
  congrArg Prod.fst (Option.some.inj (hp.symm.trans hq))

section First

variable {c : Cursor} {first : Char} {s : Symbol} {text digits rest : List Char}

theorem not_isBlank_of_isDigit (h : first.isDigit) : ¬Piece.isBlank first ∧ first ≠ '"' := by
  constructor
  · intro hblank
    rcases Piece.isBlank_iff.1 hblank with rfl | rfl | rfl | rfl <;> revert h <;> decide
  · rintro rfl
    revert h
    decide

theorem not_isBlank_of_startsWord (h : Piece.startsWord first) :
    ¬Piece.isBlank first ∧ first ≠ '"' ∧ ¬first.isDigit := by
  refine ⟨fun hblank => ?_, ?_, fun hdigit => ?_⟩
  · rcases Piece.isBlank_iff.1 hblank with rfl | rfl | rfl | rfl <;> revert h <;> decide
  · rintro rfl
    revert h
    decide
  · -- digits come before all letters and the underscore
    have hnine := (Piece.isDigit_iff.1 hdigit).2
    rcases Piece.startsWord_iff.1 h with ⟨hletter, -⟩ | ⟨hletter, -⟩ | rfl
    · exact absurd (Char.le_trans hletter hnine) (by decide)
    · exact absurd (Char.le_trans hletter hnine) (by decide)
    · exact absurd hnine (by decide)

theorem piece?_eq (h : c.rest = first :: rest) :
    c.piece? = some ((c.pass [first]).pieceFrom first) := by
  rw [piece?, next?_eq h]
  rfl

theorem reads_blank (h : c.rest = first :: rest) (hb : Piece.isBlank first) :
    c.Reads (.blank first) := by
  rw [Reads, piece?_eq h, pieceFrom, if_pos hb]
  rfl

theorem reads_string (h : c.rest = '"' :: (text ++ '"' :: rest)) (no_quote : '"' ∉ text) :
    c.Reads (.token (.string (String.ofList text)) ('"' :: (text ++ ['"']))) := by
  have hrest : (c.pass ['"']).rest = text ++ '"' :: rest := rest_pass h
  rw [Reads, piece?_eq h, pieceFrom, if_neg (by decide), if_pos rfl,
    quoted_of_closed hrest no_quote, pass_append]
  rfl

theorem reads_openString (h : c.rest = '"' :: text) (no_quote : '"' ∉ text) :
    c.Reads (.openString ('"' :: text)) := by
  have hrest : (c.pass ['"']).rest = text := rest_pass h
  rw [Reads, piece?_eq h, pieceFrom, if_neg (by decide), if_pos rfl,
    quoted_of_open (by rwa [hrest]), pass_append, hrest]
  rfl

theorem pieceFrom_of_isDigit (h : first.isDigit) (c : Cursor) :
    c.pieceFrom first = c.number first := by
  obtain ⟨hblank, hquote⟩ := not_isBlank_of_isDigit h
  rw [pieceFrom, if_neg hblank, if_neg hquote, if_pos h]

theorem reads_decimal {fraction : List Char} (h : c.rest = digits ++ '.' :: (fraction ++ rest))
    (nonempty : digits ≠ []) (isDigit : ∀ y ∈ digits, y.isDigit) (fraction_nonempty : fraction ≠ [])
    (fraction_isDigit : ∀ y ∈ fraction, y.isDigit) (hrest : ∀ y ∈ rest.head?, ¬y.isDigit) :
    c.Reads (.token (.number (Decimal.read digits fraction)) (digits ++ '.' :: fraction)) := by
  obtain ⟨first, digits, rfl⟩ := List.exists_cons_of_ne_nil nonempty
  obtain ⟨hfirst, isDigit⟩ := List.forall_mem_cons.1 isDigit
  have hafter : (c.pass [first]).rest = digits ++ '.' :: (fraction ++ rest) := rest_pass h
  rw [Reads, piece?_eq h, pieceFrom_of_isDigit hfirst,
    number_of_decimal hafter isDigit fraction_nonempty fraction_isDigit hrest, pass_append]
  rfl

theorem reads_integer (h : c.rest = digits ++ rest) (nonempty : digits ≠ [])
    (isDigit : ∀ y ∈ digits, y.isDigit) (hrest : ∀ y ∈ rest.head?, ¬y.isDigit)
    (hfraction : ¬StartsFraction rest) :
    c.Reads (.token (.number (Decimal.read digits [])) digits) := by
  obtain ⟨first, digits, rfl⟩ := List.exists_cons_of_ne_nil nonempty
  obtain ⟨hfirst, isDigit⟩ := List.forall_mem_cons.1 isDigit
  have hafter : (c.pass [first]).rest = digits ++ rest := rest_pass h
  rw [Reads, piece?_eq h, pieceFrom_of_isDigit hfirst,
    number_of_integer hafter isDigit hrest hfraction, pass_append]
  rfl

/-- A number takes all digits that follow, and a fraction if there is one. -/
theorem reads_number (h : c.rest = digits ++ rest) (nonempty : digits ≠ [])
    (isDigit : ∀ y ∈ digits, y.isDigit) (hrest : ∀ y ∈ rest.head?, ¬y.isDigit) :
    (∃ fraction rest', rest = '.' :: (fraction ++ rest') ∧ fraction ≠ [] ∧
      (∀ y ∈ fraction, y.isDigit) ∧
      c.Reads (.token (.number (Decimal.read digits fraction)) (digits ++ '.' :: fraction))) ∨
    c.Reads (.token (.number (Decimal.read digits [])) digits) := by
  by_cases hfraction : StartsFraction rest
  · obtain ⟨d, after, rfl, hd⟩ := hfraction
    obtain ⟨fraction, rest', rfl, hfraction, hrest'⟩ := exists_span Char.isDigit after
    have hall : ∀ y ∈ d :: fraction, y.isDigit := List.forall_mem_cons.2 ⟨hd, hfraction⟩
    rw [← List.cons_append] at h ⊢
    exact .inl ⟨d :: fraction, rest', rfl, by simp, hall,
      reads_decimal h nonempty isDigit (by simp) hall hrest'⟩
  · exact .inr (reads_integer h nonempty isDigit hrest hfraction)

theorem reads_word (h : c.rest = first :: (text ++ rest)) (starts : Piece.startsWord first)
    (continues : ∀ y ∈ text, Piece.continuesWord y)
    (hrest : ∀ y ∈ rest.head?, ¬Piece.continuesWord y) :
    c.Reads (.token (Piece.word (first :: text)) (first :: text)) := by
  obtain ⟨hblank, hquote, hdigit⟩ := not_isBlank_of_startsWord starts
  have hafter : (c.pass [first]).rest = text ++ rest := rest_pass h
  rw [Reads, piece?_eq h, pieceFrom, if_neg hblank, if_neg hquote, if_neg hdigit, if_pos starts,
    word_eq hafter continues hrest, pass_append]
  rfl

theorem reads_comment (h : c.rest = '/' :: '/' :: (text ++ rest)) (no_lineFeed : '\n' ∉ text)
    (ends : ∀ y ∈ rest.head?, y = '\n') : c.Reads (.comment ('/' :: '/' :: text)) := by
  have hafter : (c.pass ['/']).rest = '/' :: (text ++ rest) := rest_pass h
  have hpeek : '/' = '/' ∧ (c.pass ['/']).peek? = some '/' := ⟨rfl, by rw [peek?, hafter]; rfl⟩
  rw [Reads, piece?_eq h, pieceFrom, if_neg (by decide), if_neg (by decide), if_neg (by decide),
    if_neg (by decide), if_pos hpeek, comment_eq hafter no_lineFeed ends, pass_append]
  rfl

/-- Behind two slashes stands a comment, up to the end of the line. -/
theorem exists_reads_comment (h : c.rest = '/' :: '/' :: text) :
    ∃ body rest, text = body ++ rest ∧ '\n' ∉ body ∧ (∀ y ∈ rest.head?, y = '\n') ∧
      c.Reads (.comment ('/' :: '/' :: body)) := by
  obtain ⟨body, rest, rfl, hbody, hrest⟩ := exists_span (· != '\n') text
  have no_lineFeed : '\n' ∉ body := fun hmem => by simpa using hbody _ hmem
  have ends : ∀ y ∈ rest.head?, y = '\n' := by simpa using hrest
  exact ⟨body, rest, rfl, no_lineFeed, ends, reads_comment h no_lineFeed ends⟩

theorem pieceFrom_of_ofChar? (hs : Symbol.ofChar? first = some s)
    (hcomment : first = '/' → c.rest.head? ≠ some '/') : c.pieceFrom first = c.symbol s first := by
  obtain ⟨hblank, hquote, hdigit, hword⟩ := Symbol.not_starts_of_ofChar? hs
  rw [pieceFrom, if_neg hblank, if_neg hquote, if_neg hdigit, if_neg hword,
    if_neg fun h => hcomment h.1 h.2, hs]

/-- A symbol takes an equals sign that follows if the two are a symbol. -/
theorem reads_symbol (h : c.rest = first :: rest) (hs : Symbol.ofChar? first = some s)
    (hcomment : first = '/' → rest.head? ≠ some '/') :
    (∃ longer rest', s.withEqual? = some longer ∧ rest = '=' :: rest' ∧
      c.Reads (.token (.symbol longer) [first, '='])) ∨
    c.Reads (.token (.symbol s) [first]) ∧
      ∀ longer, s.withEqual? = some longer → rest.head? ≠ some '=' := by
  have hafter : (c.pass [first]).rest = rest := rest_pass h
  have hpiece := pieceFrom_of_ofChar? (c := c.pass [first]) hs (by rwa [hafter])
  cases hlonger : s.withEqual? with
  | none =>
    refine .inr ⟨?_, by simp⟩
    rw [Reads, piece?_eq h, hpiece, symbol, hlonger]
    rfl
  | some longer =>
    by_cases hequal : rest.head? = some '='
    · obtain ⟨rest', rfl⟩ := List.head?_eq_some_iff.1 hequal
      refine .inl ⟨longer, rest', rfl, rfl, ?_⟩
      rw [Reads, piece?_eq h, hpiece, symbol, hlonger]
      dsimp only
      rw [skip?_eq hafter, pass_append]
      rfl
    · refine .inr ⟨?_, fun _ _ => hequal⟩
      have hskip : (c.pass [first]).skip? '=' = none := by
        refine skip?_eq_none fun y hy => ?_
        rintro rfl
        exact hequal (hafter ▸ hy)
      rw [Reads, piece?_eq h, hpiece, symbol, hlonger]
      dsimp only
      rw [hskip]
      rfl

theorem reads_stray (h : c.rest = first :: rest) (hblank : ¬Piece.isBlank first)
    (hquote : first ≠ '"') (hdigit : ¬first.isDigit) (hword : ¬Piece.startsWord first)
    (hsymbol : Symbol.ofChar? first = none) : c.Reads (.stray first) := by
  have hslash : ¬(first = '/' ∧ (c.pass [first]).peek? = some '/') := by
    rintro ⟨rfl, -⟩
    simp [Symbol.ofChar?] at hsymbol
  rw [Reads, piece?_eq h, pieceFrom, if_neg hblank, if_neg hquote, if_neg hdigit, if_neg hword,
    if_neg hslash, hsymbol]
  rfl

end First

/-! ### What is read stands -/

open Piece (Fits)

/-- Every place but the end has a piece that fits there. -/
theorem exists_reads {c : Cursor} (h : c.rest ≠ []) :
    ∃ p rest, c.Reads p ∧ c.rest = p.text ++ rest ∧ Fits p rest := by
  obtain ⟨first, after, hc⟩ := List.exists_cons_of_ne_nil h
  -- the classes of first characters in the order in which they are tried
  by_cases hblank : Piece.isBlank first
  · exact ⟨_, after, reads_blank hc hblank, hc, .blank hblank⟩
  by_cases hquote : first = '"'
  · subst hquote
    by_cases hclosed : '"' ∈ after
    · obtain ⟨text, rest, rfl, no_quote⟩ := List.eq_append_cons_of_mem hclosed
      exact ⟨_, rest, reads_string hc no_quote, by simpa [Piece.text] using hc,
        .token (.string no_quote)⟩
    · exact ⟨_, [], reads_openString hc hclosed, by simpa [Piece.text] using hc,
        .openString hclosed⟩
  by_cases hdigit : first.isDigit
  · obtain ⟨digits, rest, rfl, hdigits, hrest⟩ := exists_span Char.isDigit after
    have hall : ∀ y ∈ first :: digits, y.isDigit := List.forall_mem_cons.2 ⟨hdigit, hdigits⟩
    rcases reads_number hc (by simp) hall hrest with
      ⟨fraction, rest', rfl, hne, hfraction, hreads⟩ | hreads
    · exact ⟨_, rest', hreads, by simpa [Piece.text] using hc,
        .token (.decimal (by simp) hall hne hfraction)⟩
    · exact ⟨_, rest, hreads, hc, .token (.integer (by simp) hall)⟩
  by_cases hword : Piece.startsWord first
  · obtain ⟨text, rest, rfl, htext, hrest⟩ := exists_span Piece.continuesWord after
    exact ⟨_, rest, reads_word hc hword htext hrest, hc, .token (.word hword htext)⟩
  by_cases hcomment : first = '/' ∧ after.head? = some '/'
  · obtain ⟨rfl, hslash⟩ := hcomment
    obtain ⟨body, rfl⟩ := List.head?_eq_some_iff.1 hslash
    obtain ⟨text, rest, rfl, no_lineFeed, ends, hreads⟩ := exists_reads_comment hc
    exact ⟨_, rest, hreads, hc, .comment no_lineFeed ends⟩
  cases hsymbol : Symbol.ofChar? first with
  | none =>
    refine ⟨_, after, reads_stray hc hblank hquote hdigit hword hsymbol, hc, .stray ?_ hblank⟩
    intro data text hlexeme
    have := hlexeme.first_cases
    simp_all
  | some s =>
    have htext := Symbol.text_of_ofChar? hsymbol
    rcases reads_symbol hc hsymbol (fun hf hs => hcomment ⟨hf, hs⟩) with
      ⟨longer, rest, hlonger, rfl, hreads⟩ | ⟨hreads, -⟩
    · have hlexeme := Lexeme.symbol longer
      rw [Symbol.text_of_withEqual? hsymbol hlonger] at hlexeme
      exact ⟨_, rest, hreads, hc, .token hlexeme⟩
    · have hlexeme := Lexeme.symbol s
      rw [htext] at hlexeme
      exact ⟨_, after, hreads, hc, .token hlexeme⟩

/-- Whether the piece read at a cursor is a given one or goes further. -/
def ReadsOver (c : Cursor) (q : Piece) : Prop :=
  ∃ p, c.Reads p ∧ (p = q ∨ p.isGreedy ∧ q.text.length < p.text.length)

section Over

variable {c : Cursor} {after : List Char}

theorem Reads.over {q : Piece} (h : c.Reads q) : c.ReadsOver q := ⟨q, h, .inl rfl⟩

/-- A token that takes more than a given one is longer, unless what it takes more is nothing. -/
theorem Reads.over_of_append {data found : Token.Data} {text more : List Char}
    (h : c.Reads (.token found (text ++ more))) (hnil : more = [] → found = data) :
    c.ReadsOver (.token data text) := by
  cases more with
  | nil =>
    obtain rfl := hnil rfl
    rw [List.append_nil] at h
    exact h.over
  | cons x more =>
    refine ⟨_, h, .inr ⟨rfl, ?_⟩⟩
    simp only [Piece.text, List.length_append, List.length_cons]
    omega

theorem readsOver_symbol {s : Symbol} (h : c.rest = s.text.toList ++ after) :
    c.ReadsOver (.token (.symbol s) s.text.toList) := by
  rcases s.text_cases with ⟨first, htext, hs⟩ | ⟨first, t, htext, hs, hlonger⟩
  · rw [htext] at h ⊢
    by_cases hcomment : first = '/' ∧ after.head? = some '/'
    · obtain ⟨rfl, hslash⟩ := hcomment
      obtain ⟨body, rfl⟩ := List.head?_eq_some_iff.1 hslash
      obtain ⟨text, rest, -, -, -, hreads⟩ := exists_reads_comment h
      exact ⟨_, hreads, .inr ⟨rfl, by simp [Piece.text]⟩⟩
    · rcases reads_symbol h hs (fun hf hslash => hcomment ⟨hf, hslash⟩) with
        ⟨longer, rest, -, -, hreads⟩ | ⟨hreads, -⟩
      · exact ⟨_, hreads, .inr ⟨rfl, by simp [Piece.text]⟩⟩
      · exact hreads.over
  · rw [htext] at h ⊢
    rcases reads_symbol h hs (by simp) with ⟨longer, rest, hlonger', -, hreads⟩ | ⟨-, hnone⟩
    · obtain rfl := Option.some.inj (hlonger.symm.trans hlonger')
      exact hreads.over
    · exact absurd rfl (hnone s hlonger)

theorem readsOver_integer {digits : List Char} (h : c.rest = digits ++ after)
    (nonempty : digits ≠ []) (isDigit : ∀ y ∈ digits, y.isDigit) :
    c.ReadsOver (.token (.number (Decimal.read digits [])) digits) := by
  obtain ⟨more, rest, rfl, hmore, hrest⟩ := exists_span Char.isDigit after
  have hall : ∀ y ∈ digits ++ more, y.isDigit := List.forall_mem_append.2 ⟨isDigit, hmore⟩
  rw [← List.append_assoc] at h
  rcases reads_number h (by simp [nonempty]) hall hrest with
    ⟨fraction, rest', -, -, -, hreads⟩ | hreads
  · rw [List.append_assoc] at hreads
    exact hreads.over_of_append (by simp)
  · exact hreads.over_of_append (by rintro rfl; rw [List.append_nil])

theorem readsOver_decimal {digits fraction : List Char}
    (h : c.rest = digits ++ '.' :: fraction ++ after) (nonempty : digits ≠ [])
    (isDigit : ∀ y ∈ digits, y.isDigit) (fraction_nonempty : fraction ≠ [])
    (fraction_isDigit : ∀ y ∈ fraction, y.isDigit) :
    c.ReadsOver (.token (.number (Decimal.read digits fraction)) (digits ++ '.' :: fraction)) := by
  obtain ⟨more, rest, rfl, hmore, hrest⟩ := exists_span Char.isDigit after
  have hall : ∀ y ∈ fraction ++ more, y.isDigit :=
    List.forall_mem_append.2 ⟨fraction_isDigit, hmore⟩
  rw [List.append_assoc, List.cons_append, ← List.append_assoc fraction] at h
  have hreads := reads_decimal h nonempty isDigit (by simp [fraction_nonempty]) hall hrest
  rw [← List.cons_append, ← List.append_assoc] at hreads
  exact hreads.over_of_append (by rintro rfl; rw [List.append_nil])

theorem readsOver_word {first : Char} {letters : List Char} (h : c.rest = first :: letters ++ after)
    (starts : Piece.startsWord first) (continues : ∀ y ∈ letters, Piece.continuesWord y) :
    c.ReadsOver (.token (Piece.word (first :: letters)) (first :: letters)) := by
  obtain ⟨more, rest, rfl, hmore, hrest⟩ := exists_span Piece.continuesWord after
  have hall : ∀ y ∈ letters ++ more, Piece.continuesWord y :=
    List.forall_mem_append.2 ⟨continues, hmore⟩
  rw [List.cons_append, ← List.append_assoc] at h
  have hreads := reads_word h starts hall hrest
  rw [← List.cons_append] at hreads
  exact hreads.over_of_append (by rintro rfl; rw [List.append_nil])

/-- What fits at a place is read there, or a longer token or comment is. -/
theorem readsOver_of_fits {q : Piece} (hq : Fits q after) (h : c.rest = q.text ++ after) :
    c.ReadsOver q := by
  cases hq with
  | token lexeme =>
    cases lexeme with
    | symbol s => exact readsOver_symbol h
    | string no_quote => exact (reads_string (by simpa [Piece.text] using h) no_quote).over
    | integer nonempty isDigit => exact readsOver_integer h nonempty isDigit
    | decimal nonempty isDigit fraction_nonempty fraction_isDigit =>
      exact readsOver_decimal h nonempty isDigit fraction_nonempty fraction_isDigit
    | word starts continues => exact readsOver_word h starts continues
  | blank isBlank => exact (reads_blank h isBlank).over
  | comment no_lineFeed ends => exact (reads_comment h no_lineFeed ends).over
  | stray no_token not_blank =>
    obtain ⟨p, rest, hreads, hp, hfits⟩ := exists_reads (c := c) (by simp [h, Piece.text])
    obtain rfl := hfits.eq_stray (hp.symm.trans h) no_token not_blank
    exact hreads.over
  | openString no_quote =>
    rw [List.append_nil] at h
    exact (reads_openString h no_quote).over

/-- What is read fits where it is read. -/
theorem Reads.exists_fits {p : Piece} (h : c.Reads p) :
    ∃ rest, c.rest = p.text ++ rest ∧ Fits p rest := by
  have hne : c.rest ≠ [] := by
    intro hnil
    simp [Reads, piece?, next?, hnil] at h
  obtain ⟨q, rest, hreads, hrest, hfits⟩ := exists_reads hne
  obtain rfl := h.unique hreads
  exact ⟨rest, hrest, hfits⟩

/-- What stands at a cursor is what is read there. -/
theorem stands_iff {p : Piece} {rest : List Char} (h : c.rest = p.text ++ rest) :
    p.Stands rest ↔ c.Reads p := by
  constructor
  · rintro ⟨fits, longest⟩
    obtain ⟨q, hreads, rfl | ⟨hgreedy, hlt⟩⟩ := readsOver_of_fits fits h
    · exact hreads
    -- what is read in place of `p` is a longer token or comment, which `longest` excludes
    · obtain ⟨after, hq, hfits⟩ := hreads.exists_fits
      obtain ⟨-, hle⟩ := longest q after hgreedy hfits (hq.symm.trans h)
      omega
  · intro hreads
    obtain ⟨rest', hrest', hfits⟩ := hreads.exists_fits
    obtain rfl := List.append_cancel_left (h.symm.trans hrest')
    refine ⟨hfits, fun q after hgreedy hq heq => ?_⟩
    obtain ⟨p', hreads', hover⟩ := readsOver_of_fits hq (h.trans heq.symm)
    obtain rfl := hreads.unique hreads'
    rcases hover with rfl | ⟨hp, hlt⟩
    · exact ⟨hgreedy, Nat.le_refl _⟩
    · exact ⟨hp, Nat.le_of_lt hlt⟩

end Over

end Cursor

end LoxCalc
