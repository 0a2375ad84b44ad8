import LoxCalc.Proofs.Decimal.Distinct
import LoxCalc.Proofs.Eval.Operators
import LoxCalc.Proofs.Expr.Places
import LoxCalc.Proofs.Session.Lines

/-!
# Trees told apart by their prefix form

A node is written as a word, with its operands behind it, and the number of operands tells a group
and a unary operator from a binary one. So a text that starts with a tree starts with one tree only,
as long as the words of literals are no strings, which can hold anything. Main statement:
`text_eq_iff_unlined`, two trees that were read are written alike only if they differ in nothing but
lines.
-/

namespace LoxCalc

/-! ### Words -/

/-- The characters that words of the prefix form are made of. -/
def isWordChar (c : Char) : Bool := c != ' ' && c != '(' && c != ')'

/-- Whether a text is one word. -/
structure IsWord (text : List Char) : Prop where
  ne_nil : text ≠ []
  all_isWordChar : ∀ c ∈ text, isWordChar c

/-- Whether no word goes on into a text. -/
def EndsWord (text : List Char) : Prop := ∀ c ∈ text.head?, ¬isWordChar c

theorem endsWord_nil : EndsWord [] := by simp [EndsWord]

section Words

variable {word word' rest rest' : List Char}

theorem IsWord.span_eq (h : IsWord word) (hrest : EndsWord rest) :
    ((Cursor.ofText (word ++ rest)).span isWordChar).1 = word :=
  congrArg Prod.fst (Cursor.span_eq rfl h.all_isWordChar hrest)

/-- Words behind which no word goes on are told from what is behind them. -/
theorem IsWord.append_inj (h : IsWord word) (h' : IsWord word') (hrest : EndsWord rest)
    (hrest' : EndsWord rest') (heq : word ++ rest = word' ++ rest') :
    word = word' ∧ rest = rest' := by
  have hword : word = word' := by rw [← h.span_eq hrest, heq, h'.span_eq hrest']
  exact ⟨hword, List.append_cancel_left (hword ▸ heq)⟩

/-- A word does not start as a node with operands does. -/
theorem IsWord.append_ne_cons (h : IsWord word) : word ++ rest ≠ '(' :: rest' := by
  obtain ⟨c, letters, rfl⟩ := List.exists_cons_of_ne_nil h.ne_nil
  intro heq
  obtain rfl := (List.cons.inj heq).1
  exact absurd (h.all_isWordChar _ List.mem_cons_self) (by decide)

end Words

theorem Decimal.isWord_text (x : Float) : IsWord (text x).toList := by
  refine ⟨text_ne_nil x, fun c hc => ?_⟩
  have hchar := mem_text hc
  by_contra hbreak
  obtain rfl | rfl | rfl : c = ' ' ∨ c = '(' ∨ c = ')' := by
    simp only [isWordChar, Bool.and_eq_true, bne_iff_ne] at hbreak
    tauto
  all_goals exact absurd hchar (by decide)

namespace Value

variable {v w : Value}

/-- A value that is no string is written as one word. -/
theorem isWord_text (h : v.kind ≠ .string) : IsWord v.text.toList := by
  cases v with
  | number x => exact Decimal.isWord_text x
  | string s => exact absurd rfl h
  | boolean b => cases b <;> exact ⟨List.cons_ne_nil _ _, List.all_eq_true.1 rfl⟩
  | nil => exact ⟨List.cons_ne_nil _ _, List.all_eq_true.1 rfl⟩

/-- Nothing but a number is written as a number is, strings aside. -/
theorem exists_number_of_text_eq {x : Float} (h : v.kind ≠ .string)
    (htext : v.text = Decimal.text x) : ∃ y, v = .number y := by
  have hmem : ∀ c ∈ v.text.toList, c.isDigit ∨ c ∈ ['-', '.', 'i', 'n', 'f', 'N', 'a'] := by
    rw [htext]
    exact fun c hc => Decimal.mem_text hc
  cases v with
  | number y => exact ⟨y, rfl⟩
  | string s => exact absurd rfl h
  | boolean b => cases b <;> exact absurd (hmem 'e' (by decide)) (by decide)
  | nil => exact absurd (hmem 'l' (by decide)) (by decide)

/-- Values that are no strings are written alike only if they are the same. -/
theorem eq_of_text_eq (hv : v.kind ≠ .string) (hw : w.kind ≠ .string) (h : v.text = w.text) :
    v = w := by
  have hbooleans : ∀ a b : Bool, (boolean a).text = (boolean b).text → a = b := by decide
  have hnil : ∀ a : Bool, (boolean a).text ≠ nil.text := by decide
  cases v with
  | number x =>
    obtain ⟨y, rfl⟩ := exists_number_of_text_eq hw h.symm
    exact congrArg number (Decimal.text_inj.1 h)
  | string s => exact absurd rfl hv
  | boolean a =>
    cases w with
    | number y => exact absurd (exists_number_of_text_eq hv h) (by simp)
    | string t => exact absurd rfl hw
    | boolean b => exact congrArg boolean (hbooleans a b h)
    | nil => exact absurd h (hnil a)
  | nil =>
    cases w with
    | number y => exact absurd (exists_number_of_text_eq hv h) (by simp)
    | string t => exact absurd rfl hw
    | boolean b => exact absurd h.symm (hnil b)
    | nil => rfl

end Value

/-! ### Operators -/

theorem Symbol.isWord_text {s : Symbol} (h : s ≠ .leftParen) (h' : s ≠ .rightParen) :
    IsWord s.text.toList := by
  cases s <;> first | contradiction | exact ⟨List.cons_ne_nil _ _, List.all_eq_true.1 rfl⟩

theorem Symbol.text_ne_group (s : Symbol) : s.text.toList ≠ "group".toList := by
  cases s <;> decide

namespace Token

variable {t u : Token}

/-- A token without its line. -/
def unlined (t : Token) : Token := { t with line := 0 }

/-- Whether a token is an operator, spelled as what it means. -/
structure IsOperator (t : Token) : Prop where
  isSpelled : t.IsSpelled
  isOperator : t.kind.isUnaryOperator ∨ t.kind.isBinaryOperator

theorem not_isEnd_of_isOperator (h : t.kind.isUnaryOperator ∨ t.kind.isBinaryOperator) :
    ¬t.isEnd := by
  intro hend
  simp [isEnd_iff.1 hend, Kind.isUnaryOperator, Kind.isBinaryOperator] at h

/-- Operators are spelled as symbols are, but not as parentheses. -/
theorem IsOperator.exists_symbol (h : t.IsOperator) :
    ∃ s : Symbol, t.lexeme.toList = s.text.toList ∧ s ≠ .leftParen ∧ s ≠ .rightParen := by
  have hspelled := h.isSpelled
  have hoperator := h.isOperator
  unfold IsSpelled at hspelled
  unfold kind at hoperator
  cases hdata : t.data with
  | symbol s =>
    rw [hdata] at hspelled hoperator
    refine ⟨s, hspelled.eq_of_symbol, ?_, ?_⟩
    · rintro rfl
      revert hoperator
      decide
    · rintro rfl
      revert hoperator
      decide
  | _ => simp [hdata, Data.kind, Kind.isUnaryOperator, Kind.isBinaryOperator] at hoperator

theorem IsOperator.isWord (h : t.IsOperator) : IsWord t.lexeme.toList := by
  obtain ⟨s, htext, hleft, hright⟩ := h.exists_symbol
  exact htext ▸ s.isWord_text hleft hright

theorem IsOperator.lexeme_ne_group (h : t.IsOperator) : t.lexeme.toList ≠ "group".toList := by
  obtain ⟨s, htext, -⟩ := h.exists_symbol
  exact htext ▸ s.text_ne_group

/-- Operators that are spelled alike differ in nothing but lines. -/
theorem IsOperator.unlined_eq (h : t.IsOperator) (h' : u.IsOperator)
    (heq : t.lexeme.toList = u.lexeme.toList) : t.unlined = u.unlined := by
  have hdata : t.data = u.data := by
    have hspelled := h.isSpelled
    unfold IsSpelled at hspelled
    rw [heq] at hspelled
    exact hspelled.data_unique h'.isSpelled
  rw [unlined, unlined, hdata, String.toList_inj.1 heq]

end Token

/-! ### Nodes -/

namespace Expr

variable {e e' : Expr} {rest rest' : List Char}

/-- Whether the word of a node says what the node is. -/
structure SpeaksPlainly (n : Expr) : Prop where
  not_string : ∀ s, n ≠ literal (.string s)
  isOperator : ∀ op, n.operator? = some op → op.IsOperator

theorem SpeaksPlainly.kind_ne_string {v : Value} (h : (literal v).SpeaksPlainly) :
    v.kind ≠ .string := by
  cases v with
  | string s => exact absurd rfl (h.not_string s)
  | _ => exact nofun

theorem SpeaksPlainly.isWord_heading (h : e.SpeaksPlainly) : IsWord e.heading := by
  cases e with
  | literal value => exact Value.isWord_text h.kind_ne_string
  | grouping inner => exact ⟨List.cons_ne_nil _ _, List.all_eq_true.1 rfl⟩
  | unary op operand => exact (h.isOperator op rfl).isWord
  | binary left op right => exact (h.isOperator op rfl).isWord

/-- A tree without the lines of its operators. -/
def unlined (e : Expr) : Expr := e.mapOperators Token.unlined

theorem text_unlined (e : Expr) : e.unlined.text = e.text :=
  text_mapOperators (f := Token.unlined) (fun _ => rfl) e

/-- The word of a node and its operands say what the node is. -/
theorem SpeaksPlainly.unlined_eq (h : e.SpeaksPlainly) (h' : e'.SpeaksPlainly)
    (hheading : e.heading = e'.heading)
    (hoperands : e.operands.map unlined = e'.operands.map unlined) : e.unlined = e'.unlined := by
  cases e with
  | literal value =>
    cases e' with
    | literal value' =>
      rw [Value.eq_of_text_eq h.kind_ne_string h'.kind_ne_string (String.toList_inj.1 hheading)]
    | _ => simp [operands] at hoperands
  | grouping inner =>
    cases e' with
    | grouping inner' => simpa [operands, unlined, mapOperators] using hoperands
    | unary op' operand' => exact absurd hheading.symm (h'.isOperator op' rfl).lexeme_ne_group
    | _ => simp [operands] at hoperands
  | unary op operand =>
    cases e' with
    | grouping inner' => exact absurd hheading (h.isOperator op rfl).lexeme_ne_group
    | unary op' operand' =>
      have hop := (h.isOperator op rfl).unlined_eq (h'.isOperator op' rfl) hheading
      simpa [operands, unlined, mapOperators, hop] using hoperands
    | _ => simp [operands] at hoperands
  | binary left op right =>
    cases e' with
    | binary left' op' right' =>
      have hop := (h.isOperator op rfl).unlined_eq (h'.isOperator op' rfl) hheading
      simpa [operands, unlined, mapOperators, hop] using hoperands
    | _ => simp [operands] at hoperands

/-! ### Trees -/

/-- Whether the words of all nodes of a tree say what the nodes are. -/
def Plain (e : Expr) : Prop := ∀ n ∈ e.postorder, n.SpeaksPlainly

theorem plain_iff : e.Plain ↔ e.SpeaksPlainly ∧ ∀ o ∈ e.operands, o.Plain := by
  cases e <;> simp [Plain, postorder, operands, or_imp, forall_and, and_comm, and_left_comm]

/-- What a node has if its operands do, every tree has. -/
theorem operands_induction {motive : Expr → Prop}
    (node : ∀ e : Expr, (∀ o ∈ e.operands, motive o) → motive e) (e : Expr) : motive e := by
  induction e with
  | literal value => exact node _ nofun
  | grouping inner ih => exact node _ (by simpa [operands] using ih)
  | unary op operand ih => exact node _ (by simpa [operands] using ih)
  | binary left op right ihl ihr => exact node _ (by simpa [operands] using ⟨ihl, ihr⟩)

/-- Whether a text that starts with a tree starts with no other plain tree, but for lines. -/
def StartsUniquely (e : Expr) : Prop :=
  ∀ ⦃e' : Expr⦄ ⦃rest rest' : List Char⦄, e'.Plain → EndsWord rest → EndsWord rest' →
    e.text.toList ++ rest = e'.text.toList ++ rest' → e.unlined = e'.unlined ∧ rest = rest'

theorem textBehind_cons (e : Expr) (es : List Expr) :
    textBehind (e :: es) = ' ' :: (e.text.toList ++ textBehind es) := rfl

theorem endsWord_textBehind (es : List Expr) (rest : List Char) :
    EndsWord (textBehind es ++ ')' :: rest) := by
  cases es with
  | nil => simp [EndsWord, textBehind, isWordChar]
  | cons e es => simp [EndsWord, textBehind_cons, isWordChar]

/-- Operands are told from each other, and from what is behind the parenthesis after them. -/
theorem textBehind_append_inj {es es' : List Expr} (hes : ∀ e ∈ es, e.StartsUniquely)
    (hes' : ∀ e ∈ es', e.Plain)
    (h : textBehind es ++ ')' :: rest = textBehind es' ++ ')' :: rest') :
    es.map unlined = es'.map unlined ∧ rest = rest' := by
  induction es generalizing es' with
  | nil =>
    cases es' with
    | nil => exact ⟨rfl, (List.cons.inj h).2⟩
    | cons e' es' => exact absurd (List.cons.inj h).1 (by decide)
  | cons e es ih =>
    cases es' with
    | nil => exact absurd (List.cons.inj h).1 (by decide)
    | cons e' es' =>
      obtain ⟨he, hes⟩ := List.forall_mem_cons.1 hes
      obtain ⟨he', hes'⟩ := List.forall_mem_cons.1 hes'
      rw [textBehind_cons, textBehind_cons, List.cons_append, List.cons_append, List.append_assoc,
        List.append_assoc] at h
      obtain ⟨hfirst, hbehind⟩ := he he' (endsWord_textBehind es rest)
        (endsWord_textBehind es' rest') (List.cons.inj h).2
      obtain ⟨hmore, hrest⟩ := ih hes hes' hbehind
      exact ⟨by rw [List.map_cons, List.map_cons, hfirst, hmore], hrest⟩

/-- No plain tree is written as the start of another. -/
theorem Plain.startsUniquely (h : e.Plain) : e.StartsUniquely := by
  -- over operands, so that groups and operators of both kinds are one case
  induction e using operands_induction with | node e ih
  intro e' rest rest' h' hrest hrest' heq
  obtain ⟨he, hoperands⟩ := plain_iff.1 h
  obtain ⟨he', hoperands'⟩ := plain_iff.1 h'
  by_cases hnone : e.operands = []
  · rw [toList_text_of_eq_nil hnone] at heq
    by_cases hnone' : e'.operands = []
    · rw [toList_text_of_eq_nil hnone'] at heq
      obtain ⟨hheading, hrests⟩ :=
        he.isWord_heading.append_inj he'.isWord_heading hrest hrest' heq
      exact ⟨he.unlined_eq he' hheading (by rw [hnone, hnone']), hrests⟩
    · rw [toList_text_of_ne_nil hnone'] at heq
      exact absurd heq he.isWord_heading.append_ne_cons
  · rw [toList_text_of_ne_nil hnone] at heq
    by_cases hnone' : e'.operands = []
    · rw [toList_text_of_eq_nil hnone'] at heq
      exact absurd heq.symm he'.isWord_heading.append_ne_cons
    · rw [toList_text_of_ne_nil hnone'] at heq
      have hbehind : e.heading ++ (textBehind e.operands ++ ')' :: rest) =
          e'.heading ++ (textBehind e'.operands ++ ')' :: rest') := by
        simpa using heq
      obtain ⟨hheading, hlists⟩ := he.isWord_heading.append_inj he'.isWord_heading
        (endsWord_textBehind _ _) (endsWord_textBehind _ _) hbehind
      obtain ⟨hsame, hrests⟩ :=
        textBehind_append_inj (fun o ho => ih o ho (hoperands o ho)) hoperands' hlists
      exact ⟨he.unlined_eq he' hheading hsame, hrests⟩

/-- Plain trees are written alike if they differ in nothing but lines, and only then. -/
theorem Plain.text_eq_iff (h : e.Plain) (h' : e'.Plain) :
    e.text = e'.text ↔ e.unlined = e'.unlined := by
  constructor
  · intro heq
    have hlist : e.text.toList ++ [] = e'.text.toList ++ [] := by rw [heq]
    exact (h.startsUniquely h' endsWord_nil endsWord_nil hlist).1
  · intro heq
    rw [← text_unlined e, heq, text_unlined]

/-! ### Trees of sources -/

theorem isOperator_of_not_misplaces {op : Token} (hop : e.operator? = some op)
    (h : ¬e.Misplaces op) : op.kind.isUnaryOperator ∨ op.kind.isBinaryOperator := by
  by_contra hnot
  rw [not_or] at hnot
  cases e with
  | literal | grouping => cases hop
  | unary =>
    obtain rfl := Option.some.inj hop
    exact h (.unary hnot.1)
  | binary =>
    obtain rfl := Option.some.inj hop
    exact h (.binary hnot.2)

/-- A tree that was read is plain if there is no string in it. -/
theorem plain_of_ofSource {source : String} (h : ofSource source = .ok e)
    (hstrings : ∀ s, literal (.string s) ∉ e.postorder) : e.Plain := by
  have hparse : (Parser.ofTokens (TokenStream.scan source .empty).1).parse = (.ok e, _) :=
    Prod.ext h rfl
  intro n hn
  refine ⟨fun s hs => hstrings s (hs ▸ hn), fun op hop => ?_⟩
  have hkind := isOperator_of_not_misplaces hop (not_misplaces_of_parse hparse n hn op)
  have hmem := Session.operator_mem_scan h hn hop .empty
  exact ⟨TokenStream.isSpelled_of_mem_scan hmem (Token.not_isEnd_of_isOperator hkind), hkind⟩

/-- The prefix form of a tree that was read says which tree it is, unless there are strings in it.
Two such trees are written alike if they differ in nothing but the lines of their operators, and
only then: they have the same nodes in the same order, and the same numbers bit for bit. -/
theorem text_eq_iff_unlined {source source' : String} (h : ofSource source = .ok e)
    (h' : ofSource source' = .ok e') (hstrings : ∀ s, literal (.string s) ∉ e.postorder)
    (hstrings' : ∀ s, literal (.string s) ∉ e'.postorder) :
    e.text = e'.text ↔ e.unlined = e'.unlined :=
  (plain_of_ofSource h hstrings).text_eq_iff (plain_of_ofSource h' hstrings')

/-- Lines and blanks are not seen, nor is how a number was spelled; a difference, a negative and
parentheses are. -/
theorem text_eq_iff_unlined_layout :
    ∃ e e' : Expr, ofSource "-(1.50 - 2) == nil" = .ok e ∧
      ofSource "- (1.5\n- 2.0)\n\n==nil" = .ok e' ∧
      (∀ s, literal (.string s) ∉ e.postorder) ∧ (∀ s, literal (.string s) ∉ e'.postorder) ∧
      e ≠ e' ∧ e.unlined = e'.unlined ∧ e.text = e'.text := by
  let tree (x y : Float) (l l' : Nat) : Expr :=
    binary (unary ⟨.symbol .minus, "-", 1⟩ (grouping
        (binary (literal (.number x)) ⟨.symbol .minus, "-", l⟩ (literal (.number y)))))
      ⟨.symbol .equalEqual, "==", l'⟩ (literal .nil)
  let tokens (x y : Float) (s t : String) (l l' : Nat) : List Token :=
    [⟨.symbol .minus, "-", 1⟩, ⟨.symbol .leftParen, "(", 1⟩, ⟨.number x, s, 1⟩,
      ⟨.symbol .minus, "-", l⟩, ⟨.number y, t, l⟩, ⟨.symbol .rightParen, ")", l⟩,
      ⟨.symbol .equalEqual, "==", l'⟩, ⟨.keyword .nilWord, "nil", l'⟩, .endOn l']
  have hread : ∀ x y s t l l',
      (Parser.ofTokens (tokens x y s t l l')).parse.1 = .ok (tree x y l l') := by
    intro x y s t l l'
    cbv
  have hstrings : ∀ x y l l' s, literal (.string s) ∉ (tree x y l l').postorder := by
    simp [tree, postorder]
  have hscan : (TokenStream.scan "-(1.50 - 2) == nil" .empty).1 =
      tokens 1.5 2 "1.50" "2" 1 1 := by decide +kernel
  have hscan' : (TokenStream.scan "- (1.5\n- 2.0)\n\n==nil" .empty).1 =
      tokens 1.5 2 "1.5" "2.0" 2 4 := by decide +kernel
  have hsource : ofSource "-(1.50 - 2) == nil" = .ok (tree 1.5 2 1 1) := by
    rw [ofSource, hscan, hread]
  have hsource' : ofSource "- (1.5\n- 2.0)\n\n==nil" = .ok (tree 1.5 2 2 4) := by
    rw [ofSource, hscan', hread]
  have hlines : (tree 1.5 2 1 1).unlined = (tree 1.5 2 2 4).unlined := rfl
  refine ⟨_, _, hsource, hsource', hstrings 1.5 2 1 1, hstrings 1.5 2 2 4, ?_, hlines, ?_⟩
  · simp [tree]
  · exact (text_eq_iff_unlined hsource hsource' (hstrings 1.5 2 1 1) (hstrings 1.5 2 2 4)).2 hlines

/-- A string is written as a number is. -/
example : (literal (.string "1")).text = (literal (.number 1)).text := by decide +kernel

end Expr

end LoxCalc
