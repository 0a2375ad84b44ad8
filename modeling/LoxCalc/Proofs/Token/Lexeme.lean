import LoxCalc.Token.Piece

/-!
# Pieces that stand at a place

Which piece stands at a place of a source, said without reading it: `Lexeme` lists the texts of
tokens with what they mean, `Piece.Fits` says what may stand before a text, and `Piece.Stands` that
a token or comment is taken if there is one, and no longer one would do.
-/

namespace LoxCalc

/-- The texts of tokens, and what they mean. -/
inductive Lexeme : Token.Data → List Char → Prop
  | symbol (s : Symbol) : Lexeme (.symbol s) s.text.toList
  | string {text : List Char} (no_quote : '"' ∉ text) :
      Lexeme (.string (String.ofList text)) ('"' :: (text ++ ['"']))
  | integer {digits : List Char} (nonempty : digits ≠ []) (isDigit : ∀ c ∈ digits, c.isDigit) :
      Lexeme (.number (Decimal.read digits [])) digits
  | decimal {digits fraction : List Char} (nonempty : digits ≠ [])
      (isDigit : ∀ c ∈ digits, c.isDigit) (fraction_nonempty : fraction ≠ [])
      (fraction_isDigit : ∀ c ∈ fraction, c.isDigit) :
      Lexeme (.number (Decimal.read digits fraction)) (digits ++ '.' :: fraction)
  | word {first : Char} {letters : List Char} (starts : Piece.startsWord first)
      (continues : ∀ c ∈ letters, Piece.continuesWord c) :
      Lexeme (Piece.word (first :: letters)) (first :: letters)

namespace Piece

/-- The pieces that may stand before a text. A stray character is one that starts neither a token
nor anything else; comments start as a slash does, and open strings as a string. -/
inductive Fits : Piece → List Char → Prop
  | token {data : Token.Data} {text rest : List Char} (lexeme : Lexeme data text) :
      Fits (.token data text) rest
  | blank {c : Char} {rest : List Char} (isBlank : isBlank c) : Fits (.blank c) rest
  | comment {body rest : List Char} (no_lineFeed : '\n' ∉ body)
      (ends : ∀ c ∈ rest.head?, c = '\n') : Fits (.comment ('/' :: '/' :: body)) rest
  | stray {c : Char} {rest : List Char} (no_token : ∀ data text, ¬Lexeme data (c :: text))
      (not_blank : ¬Piece.isBlank c) : Fits (.stray c) rest
  | openString {body : List Char} (no_quote : '"' ∉ body) : Fits (.openString ('"' :: body)) []

/-- The pieces that are as long as they can be. -/
def isGreedy : Piece → Bool
  | token .. | comment .. => true
  | _ => false

/-- Whether a piece is the one that stands before a text: where a token or a comment can stand, the
longest one does. -/
structure Stands (p : Piece) (rest : List Char) : Prop where
  fits : p.Fits rest
  longest : ∀ (q : Piece) (after : List Char), q.isGreedy → q.Fits after →
    q.text ++ after = p.text ++ rest → p.isGreedy ∧ q.text.length ≤ p.text.length

end Piece

/-- A symbol is spelled with one character, or with an equals sign behind one. -/
theorem Symbol.text_cases (s : Symbol) :
    (∃ c, s.text.toList = [c] ∧ ofChar? c = some s) ∨
      ∃ c t, s.text.toList = [c, '='] ∧ ofChar? c = some t ∧ t.withEqual? = some s := by
  cases s
  case bangEqual => exact .inr ⟨_, _, rfl, rfl, rfl⟩
  case equalEqual => exact .inr ⟨_, _, rfl, rfl, rfl⟩
  case greaterEqual => exact .inr ⟨_, _, rfl, rfl, rfl⟩
  case lessEqual => exact .inr ⟨_, _, rfl, rfl, rfl⟩
  all_goals exact .inl ⟨_, rfl, rfl⟩

namespace Symbol

variable {c : Char} {s longer : Symbol}

theorem text_of_ofChar? (h : ofChar? c = some s) : s.text.toList = [c] := by
  unfold ofChar? at h
  split at h <;> simp at h <;> subst h <;> rfl

theorem text_of_withEqual? (h : ofChar? c = some s) (h' : s.withEqual? = some longer) :
    longer.text.toList = [c, '='] := by
  unfold ofChar? at h
  split at h <;> simp at h <;> subst h <;> simp [withEqual?] at h' <;> subst h' <;> rfl

/-- No symbol starts as anything else does. -/
theorem not_starts_of_ofChar? (h : ofChar? c = some s) :
    ¬Piece.isBlank c ∧ c ≠ '"' ∧ ¬c.isDigit ∧ ¬Piece.startsWord c := by
  unfold ofChar? at h
  split at h <;> first | decide | simp at h

end Symbol

/-- A word is a reserved word or a name. -/
theorem Piece.word_cases (text : List Char) :
    (∃ k, word text = .keyword k) ∨ word text = .identifier := by
  unfold word
  split
  · exact .inl ⟨_, rfl⟩
  · exact .inr rfl

/-- A reserved word is spelled as a word. -/
theorem Lexeme.keyword (k : Keyword) : Lexeme (.keyword k) k.text.toList := by
  obtain ⟨first, letters, htext, hfirst, hletters⟩ : ∃ first letters,
      k.text.toList = first :: letters ∧ Piece.startsWord first ∧
        ∀ c ∈ letters, Piece.continuesWord c := by
    cases k <;> exact ⟨_, _, rfl, rfl, List.all_eq_true.1 rfl⟩
  have hmeans : Piece.word (first :: letters) = .keyword k := by
    rw [Piece.word_eq_keyword_iff, ← htext, String.ofList_toList]
  rw [htext, ← hmeans]
  exact .word hfirst hletters

theorem Lexeme.ne_nil {data : Token.Data} {text : List Char} (h : Lexeme data text) :
    text ≠ [] := by
  cases h with
  | symbol s => rcases s.text_cases with ⟨c, h, -⟩ | ⟨c, t, h, -⟩ <;> simp [h]
  | string => simp
  | integer nonempty => exact nonempty
  | decimal => simp
  | word => simp

/-- No text means the end of input. -/
theorem Lexeme.kind_ne_endOfInput {data : Token.Data} {text : List Char} (h : Lexeme data text) :
    data.kind ≠ .endOfInput := by
  cases h with
  | @word first letters =>
    rcases Piece.word_cases (first :: letters) with ⟨k, hword⟩ | hword
    · simp [hword, Token.Data.kind]
    · simp [hword, Token.Data.kind]
  | _ => simp [Token.Data.kind]

/-- A number is spelled with digits and points. -/
theorem Lexeme.isDigit_or_eq_of_number {x : Float} {text : List Char}
    (h : Lexeme (.number x) text) : ∀ c ∈ text, c.isDigit ∨ c = '.' := by
  intro c hc
  generalize hdata : Token.Data.number x = data at h
  cases h with
  | symbol | string => cases hdata
  | @word first letters =>
    rcases Piece.word_cases (first :: letters) with ⟨k, hword⟩ | hword
    · cases hdata.trans hword
    · cases hdata.trans hword
  | integer nonempty isDigit => exact .inl (isDigit c hc)
  | decimal nonempty isDigit fraction_nonempty fraction_isDigit =>
    rcases List.mem_append.1 hc with hc | hc
    · exact .inl (isDigit c hc)
    · rcases List.mem_cons.1 hc with rfl | hc
      · exact .inr rfl
      · exact .inl (fraction_isDigit c hc)

/-- A symbol is spelled in one way. -/
theorem Lexeme.eq_of_symbol {s : Symbol} {text : List Char} (h : Lexeme (.symbol s) text) :
    text = s.text.toList := by
  generalize hdata : Token.Data.symbol s = data at h
  cases h with
  | symbol s' =>
    obtain rfl := Token.Data.symbol.inj hdata
    rfl
  | @word first letters =>
    rcases Piece.word_cases (first :: letters) with ⟨k, hword⟩ | hword
    · cases hdata.trans hword
    · cases hdata.trans hword
  | _ => cases hdata

theorem Piece.Fits.text_ne_nil {p : Piece} {rest : List Char} (h : p.Fits rest) : p.text ≠ [] := by
  cases h with
  | token lexeme => exact lexeme.ne_nil
  | _ => simp [text]

/-- A stray character is no line feed. -/
theorem Piece.Fits.lineFeeds_stray {c : Char} {rest : List Char} (h : (Piece.stray c).Fits rest) :
    Text.lineFeeds (Piece.stray c).text = 0 := by
  cases h with
  | stray no_token not_blank =>
    apply List.count_eq_zero.2
    intro hmem
    obtain rfl := List.mem_singleton.1 hmem
    exact not_blank rfl

/-- A comment ends in front of a line feed. -/
theorem Piece.Fits.lineFeeds_comment {text rest : List Char}
    (h : (Piece.comment text).Fits rest) : Text.lineFeeds text = 0 := by
  cases h with
  | comment no_lineFeed ends => exact List.count_eq_zero.2 (by simpa using no_lineFeed)

/-- The characters that tokens start with. -/
theorem Lexeme.first_cases {data : Token.Data} {first : Char} {text : List Char}
    (h : Lexeme data (first :: text)) : first = '"' ∨ first.isDigit ∨ Piece.startsWord first ∨
      ∃ s, Symbol.ofChar? first = some s := by
  generalize htext : first :: text = all at h
  cases h with
  | symbol s =>
    rcases s.text_cases with ⟨c, h, hs⟩ | ⟨c, t, h, hs, -⟩
    · obtain ⟨rfl, -⟩ := List.cons.inj (htext.trans h)
      exact .inr (.inr (.inr ⟨_, hs⟩))
    · obtain ⟨rfl, -⟩ := List.cons.inj (htext.trans h)
      exact .inr (.inr (.inr ⟨_, hs⟩))
  | string => exact .inl (List.cons.inj htext).1
  | integer nonempty isDigit => exact .inr (.inl (isDigit _ (htext ▸ List.mem_cons_self)))
  | decimal nonempty isDigit =>
    obtain ⟨d, digits, rfl⟩ := List.exists_cons_of_ne_nil nonempty
    obtain ⟨rfl, -⟩ := List.cons.inj htext
    exact .inr (.inl (isDigit _ List.mem_cons_self))
  | word starts =>
    obtain ⟨rfl, -⟩ := List.cons.inj htext
    exact .inr (.inr (.inl starts))

/-- A character that is in no symbol and in no word is in a lexeme only if that is a string. -/
theorem Lexeme.eq_string_of_mem {data : Token.Data} {text : List Char} {c : Char}
    (h : Lexeme data text) (hmem : c ∈ text) (hsymbol : Symbol.ofChar? c = none)
    (hword : ¬Piece.continuesWord c) : ∃ body, text = '"' :: (body ++ ['"']) ∧ '"' ∉ body := by
  have hdigit : ¬c.isDigit := fun hd => hword (Bool.or_eq_true_iff.2 (.inr hd))
  cases h with
  | symbol s =>
    rcases s.text_cases with ⟨first, htext, hs⟩ | ⟨first, t, htext, hs, -⟩
    · obtain rfl : c = first := by simpa [htext] using hmem
      cases hs.symm.trans hsymbol
    · obtain rfl | rfl : c = first ∨ c = '=' := by simpa [htext] using hmem
      · cases hs.symm.trans hsymbol
      · cases hsymbol
  | string no_quote => exact ⟨_, rfl, no_quote⟩
  | integer nonempty isDigit => exact absurd (isDigit c hmem) hdigit
  | decimal nonempty isDigit fraction_nonempty fraction_isDigit =>
    rcases List.mem_append.1 hmem with hmem | hmem
    · exact absurd (isDigit c hmem) hdigit
    · rcases List.mem_cons.1 hmem with rfl | hmem
      · cases hsymbol
      · exact absurd (fraction_isDigit c hmem) hdigit
  | word starts continues =>
    rcases List.mem_cons.1 hmem with rfl | hmem
    · exact absurd (Bool.or_eq_true_iff.2 (.inl starts)) hword
    · exact absurd (continues c hmem) hword

/-- Where no token and no blank starts, only a stray character fits. -/
theorem Piece.Fits.eq_stray {p : Piece} {x : Char} {rest after : List Char} (h : p.Fits rest)
    (htext : p.text ++ rest = x :: after) (no_token : ∀ data text, ¬Lexeme data (x :: text))
    (not_blank : ¬isBlank x) : p = .stray x := by
  cases h with
  | token lexeme =>
    obtain ⟨y, text, rfl⟩ := List.exists_cons_of_ne_nil lexeme.ne_nil
    obtain ⟨rfl, -⟩ := List.cons.inj htext
    exact absurd lexeme (no_token _ _)
  | blank hblank =>
    obtain ⟨rfl, -⟩ := List.cons.inj htext
    exact absurd hblank not_blank
  | comment =>
    obtain ⟨rfl, -⟩ := List.cons.inj htext
    exact absurd (Lexeme.symbol .slash) (no_token _ _)
  | stray =>
    obtain ⟨rfl, -⟩ := List.cons.inj htext
    rfl
  | openString =>
    obtain ⟨rfl, -⟩ := List.cons.inj htext
    exact absurd (Lexeme.string List.not_mem_nil) (no_token _ _)

end LoxCalc
