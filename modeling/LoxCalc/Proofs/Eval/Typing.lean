import LoxCalc.Expr.Eval
import LoxCalc.Proofs.Expr.Layers
import LoxCalc.Token.Stream

/-!
# Types

Whether an expression has a value, and of which type, depends on the types of its literals and not
on what they hold; and so does the fault, if it has none. `Outline.kind` computes the type from a
tree whose literals are replaced by their types. Main statement: `eval_of_types`, evaluation agrees
with that, so trees alike in their types and sources alike in their tokens come to the same.
-/

namespace LoxCalc

namespace Eval

/-! ### Types of operators -/

/-- The type that an operator on numbers gives. -/
def numericKind (result a b : Value.Kind) : Except Cause Value.Kind :=
  if a = .number ∧ b = .number then .ok result else .error .operandsMustBeNumbers

/-- The type of a sum. -/
def sumKind (d : Dialect) (a b : Value.Kind) : Except Cause Value.Kind :=
  if a = b ∧ (a = .number ∨ a = .string) then .ok a
  else if d = .standard ∧ (a = .string ∨ b = .string) then .ok .string
  else .error .operandsMustBeNumbersOrStrings

/-- The type that a binary operator gives. -/
def binaryKind (d : Dialect) (op : Token.Kind) (a b : Value.Kind) : Except Cause Value.Kind :=
  match op with
  | .symbol .plus => sumKind d a b
  | .symbol .minus | .symbol .star | .symbol .slash => numericKind .number a b
  | .symbol .greater | .symbol .greaterEqual => numericKind .boolean a b
  | .symbol .less | .symbol .lessEqual => numericKind .boolean a b
  | .symbol .equalEqual | .symbol .bangEqual => .ok .boolean
  | _ => .error .unknownOperator

/-- The type that a unary operator gives. -/
def unaryKind (op : Token.Kind) (a : Value.Kind) : Except Cause Value.Kind :=
  match op with
  | .symbol .minus => if a = .number then .ok .number else .error .operandMustBeNumber
  | .symbol .bang => .ok .boolean
  | _ => .error .unknownOperator

theorem map_kind_arithmetic (f : Float → Float → Float) (a b : Value) :
    (arithmetic f a b).map Value.kind = numericKind .number a.kind b.kind := by
  cases a <;> cases b <;> rfl

theorem map_kind_comparison (f : Float → Float → Bool) (a b : Value) :
    (comparison f a b).map Value.kind = numericKind .boolean a.kind b.kind := by
  cases a <;> cases b <;> rfl

theorem map_kind_sum (d : Dialect) (a b : Value) :
    (sum d a b).map Value.kind = sumKind d a.kind b.kind := by
  cases d <;> cases a <;> cases b <;> rfl

theorem map_kind_applyBinary (d : Dialect) (op : Token.Kind) (a b : Value) :
    (applyBinary d op a b).map Value.kind = binaryKind d op a.kind b.kind := by
  unfold applyBinary
  split
  case h_1 => exact map_kind_sum d a b
  case h_2 | h_3 | h_4 => exact map_kind_arithmetic _ a b
  case h_5 | h_6 | h_7 | h_8 => exact map_kind_comparison _ a b
  case h_9 | h_10 => rfl
  case h_11 =>
    unfold binaryKind
    split <;> simp_all
    rfl

theorem map_kind_applyUnary (op : Token.Kind) (a : Value) :
    (applyUnary op a).map Value.kind = unaryKind op a.kind := by
  unfold applyUnary
  split
  case h_1 => cases a <;> rfl
  case h_2 => rfl
  case h_3 =>
    unfold unaryKind
    split <;> simp_all
    rfl

end Eval

/-! ### Types of trees -/

/-- A tree that keeps the types of its literals, but not what they hold. -/
inductive Outline
  | literal (kind : Value.Kind)
  | grouping (inner : Outline)
  | unary (op : Token) (operand : Outline)
  | binary (left : Outline) (op : Token) (right : Outline)

/-- The type of a tree, or the first fault. -/
def Outline.kind (d : Dialect) : Outline → Except Eval.Fault Value.Kind
  | literal k => .ok k
  | grouping inner => inner.kind d
  | unary op operand => do
    let a ← operand.kind d
    (Eval.unaryKind op.kind a).mapError (⟨·, op⟩)
  | binary left op right => do
    let a ← left.kind d
    let b ← right.kind d
    (Eval.binaryKind d op.kind a b).mapError (⟨·, op⟩)

/-- A tree without what its literals hold. -/
def Expr.outline : Expr → Outline
  | literal value => .literal value.kind
  | grouping inner => .grouping inner.outline
  | unary op operand => .unary op operand.outline
  | binary left op right => .binary left.outline op right.outline

theorem map_mapError {ε ε' α β : Type} (f : α → β) (g : ε → ε') (x : Except ε α) :
    (x.mapError g).map f = (x.map f).mapError g := by
  cases x <;> rfl

/-- The type of a tree is the type of its value. -/
theorem kind_outline (d : Dialect) (e : Expr) :
    e.outline.kind d = (e.eval d).map Value.kind := by
  induction e with
  | literal value => rfl
  | grouping inner ih => exact ih
  | unary op operand ih =>
    rw [Expr.outline, Outline.kind, Expr.eval, ih]
    cases operand.eval d with
    | error fault => rfl
    | ok a =>
      rw [map_mapError, Eval.map_kind_applyUnary]
      rfl
  | binary left op right ihl ihr =>
    rw [Expr.outline, Outline.kind, Expr.eval, ihl, ihr]
    cases left.eval d with
    | error fault => rfl
    | ok a =>
      cases right.eval d with
      | error fault => rfl
      | ok b =>
        dsimp only
        rw [map_mapError, Eval.map_kind_applyBinary]
        rfl

/-! ### Trees alike in their types -/

/-- Whether two trees have one shape, with related operators and with literals of the same types. -/
inductive Expr.Alike (r : Token → Token → Prop) : Expr → Expr → Prop
  | literal {v w : Value} (kind_eq : v.kind = w.kind) : Alike r (.literal v) (.literal w)
  | grouping {e e' : Expr} (inner : Alike r e e') : Alike r (.grouping e) (.grouping e')
  | unary {op op' : Token} {e e' : Expr} (ops : r op op') (operand : Alike r e e') :
      Alike r (.unary op e) (.unary op' e')
  | binary {left left' right right' : Expr} {op op' : Token} (lefts : Alike r left left')
      (ops : r op op') (rights : Alike r right right') :
      Alike r (.binary left op right) (.binary left' op' right')

/-- Whether two outcomes are values of one type, or faults of one cause at related operators. -/
def Eval.Agree (r : Token → Token → Prop) (x y : Except Fault Value) : Prop :=
  (∃ v w, x = .ok v ∧ y = .ok w ∧ v.kind = w.kind) ∨
    ∃ cause op op', x = .error ⟨cause, op⟩ ∧ y = .error ⟨cause, op'⟩ ∧ r op op'

theorem Eval.agree_mapError {r : Token → Token → Prop} {op op' : Token} (ops : r op op')
    {x y : Except Cause Value} (h : x.map Value.kind = y.map Value.kind) :
    Agree r (x.mapError (⟨·, op⟩)) (y.mapError (⟨·, op'⟩)) := by
  cases x with
  | error cause =>
    cases y with
    | error cause' =>
      obtain rfl := Except.error.inj h
      exact .inr ⟨cause, op, op', rfl, rfl, ops⟩
    | ok w => cases h
  | ok v =>
    cases y with
    | error cause' => cases h
    | ok w => exact .inl ⟨v, w, rfl, rfl, Except.ok.inj h⟩

/-- Trees that are alike come to outcomes that agree. -/
theorem Expr.Alike.agree_eval {r : Token → Token → Prop} (hr : ∀ t u, r t u → t.kind = u.kind)
    {e e' : Expr} (h : e.Alike r e') (d : Dialect) : Eval.Agree r (e.eval d) (e'.eval d) := by
  induction h with
  | literal kind_eq => exact .inl ⟨_, _, rfl, rfl, kind_eq⟩
  | grouping inner ih => exact ih
  | unary ops operand ih =>
    rcases ih with ⟨v, w, hv, hw, kind_eq⟩ | ⟨cause, op, op', hf, hg, faults⟩
    · rw [eval, eval, hv, hw]
      refine Eval.agree_mapError ops ?_
      rw [Eval.map_kind_applyUnary, Eval.map_kind_applyUnary, kind_eq, hr _ _ ops]
    · rw [eval, eval, hf, hg]
      exact .inr ⟨cause, op, op', rfl, rfl, faults⟩
  | binary lefts ops rights ihl ihr =>
    rcases ihl with ⟨v, w, hv, hw, left_eq⟩ | ⟨cause, op, op', hf, hg, faults⟩
    · rcases ihr with ⟨v', w', hv', hw', right_eq⟩ | ⟨cause, op, op', hf, hg, faults⟩
      · rw [eval, eval, hv, hw, hv', hw']
        refine Eval.agree_mapError ops ?_
        rw [Eval.map_kind_applyBinary, Eval.map_kind_applyBinary, left_eq, right_eq, hr _ _ ops]
      · rw [eval, eval, hv, hw, hf, hg]
        exact .inr ⟨cause, op, op', rfl, rfl, faults⟩
    · rw [eval, eval, hf, hg]
      exact .inr ⟨cause, op, op', rfl, rfl, faults⟩

/-! ### Sources alike in their tokens -/

theorem Level.not_isLiteral_of_takes {l : Level} {k : Token.Kind} (h : l.takes k) :
    ¬k.isLiteral := by
  unfold takes at h
  split at h <;> simp_all [Token.Kind.isLiteral]

namespace Token

/-- The kind of a token, with one kind for both truth values. -/
def form (t : Token) : Kind := if t.kind = .keyword .falseWord then .keyword .trueWord else t.kind

theorem kind_eq_of_form {t u : Token} (h : t.form = u.form) (ht : ¬t.kind.isLiteral) :
    u.kind = t.kind := by
  unfold form at h
  split at h <;> split at h <;> simp_all [Kind.isLiteral]

/-- A token of the form of a symbol is that symbol. -/
theorem symbol_of_form {t u : Token} {s : Symbol} (h : u.form = t.form) (ht : t.data = .symbol s) :
    u.data = .symbol s := by
  rw [← kind_eq_symbol_iff] at ht ⊢
  rw [← ht]
  exact kind_eq_of_form h.symm (by simp [ht, Kind.isLiteral])

theorem isEnd_eq_form (t : Token) : t.isEnd = decide (t.form = .endOfInput) := by
  unfold form
  split <;> simp_all [isEnd]

theorem map_form_beforeEnd (tokens : List Token) :
    (beforeEnd tokens).map form = (tokens.map form).takeWhile (· ≠ .endOfInput) := by
  rw [List.takeWhile_map, beforeEnd]
  congr 2
  funext t
  simp [isEnd_eq_form]

/-- The form of the tokens that are literals of a type. -/
def formOf : Value.Kind → Kind
  | .number => .number
  | .string => .string
  | .boolean => .keyword .trueWord
  | .nil => .keyword .nilWord

theorem form_eq_formOf_iff {t : Token} {k : Value.Kind} :
    t.form = formOf k ↔ ∃ v : Value, v.kind = k ∧ t.data = v.literalData := by
  obtain ⟨data, lexeme, line⟩ := t
  constructor
  · intro h
    by_cases hfalse : data = .keyword .falseWord
    · subst hfalse
      cases k with
      | boolean => exact ⟨.boolean false, rfl, rfl⟩
      | _ => cases h
    · have hkind : data.kind = formOf k := by
        have : data.kind ≠ .keyword .falseWord := by cases data <;> simp_all [Data.kind]
        simpa [form, kind, this] using h
      cases k with
      | number =>
        obtain ⟨x, rfl⟩ : ∃ x, data = .number x := by cases data <;> simp_all [Data.kind, formOf]
        exact ⟨.number x, rfl, rfl⟩
      | string =>
        obtain ⟨s, rfl⟩ : ∃ s, data = .string s := by cases data <;> simp_all [Data.kind, formOf]
        exact ⟨.string s, rfl, rfl⟩
      | boolean =>
        obtain rfl : data = .keyword .trueWord := by cases data <;> simp_all [Data.kind, formOf]
        exact ⟨.boolean true, rfl, rfl⟩
      | nil =>
        obtain rfl : data = .keyword .nilWord := by cases data <;> simp_all [Data.kind, formOf]
        exact ⟨.nil, rfl, rfl⟩
  · rintro ⟨v, rfl, h⟩
    rcases v with x | s | (_ | _) | _ <;>
      simp_all [form, kind, Value.literalData, Data.kind, formOf, Value.kind]

end Token

namespace Expr

/-- Tokens of the same forms as those of a layered tree are those of a tree alike. -/
theorem Layered.exists_alike {l : Level} {e : Expr} (h : Layered l e) {tokens tokens' : List Token}
    (hspelled : e.SpelledBy tokens) (hforms : tokens.map Token.form = tokens'.map Token.form) :
    ∃ e', Layered l e' ∧ e'.SpelledBy tokens' ∧ e.Alike (·.kind = ·.kind) e' := by
  induction h generalizing tokens tokens' with
  | literal value =>
    obtain ⟨t, ht, rfl⟩ := spelledBy_literal.1 hspelled
    obtain ⟨u, rfl, hu⟩ := List.map_eq_singleton_iff.1 hforms.symm
    obtain ⟨w, hw, hdata⟩ := Token.form_eq_formOf_iff.1
      (hu.trans (Token.form_eq_formOf_iff.2 ⟨value, rfl, ht⟩))
    exact ⟨.literal w, .literal w, spelledBy_literal.2 ⟨u, hdata, rfl⟩, .literal hw.symm⟩
  | grouping layered ih =>
    obtain ⟨opening, inner, closing, hopens, hinner, hcloses, rfl⟩ := spelledBy_grouping.1 hspelled
    rw [List.map_cons, List.map_append] at hforms
    obtain ⟨opening', _, rfl, hopening, hbehind⟩ := List.map_eq_cons_iff.1 hforms.symm
    obtain ⟨inner', _, rfl, hinner', hend⟩ := List.map_eq_append_iff.1 hbehind
    obtain ⟨closing', rfl, hclosing⟩ := List.map_eq_singleton_iff.1 hend
    obtain ⟨e', hlayered, hspelled', halike⟩ := ih hinner hinner'.symm
    exact ⟨.grouping e', .grouping hlayered,
      spelledBy_grouping.2 ⟨opening', inner', closing', Token.symbol_of_form hopening hopens,
        hspelled', Token.symbol_of_form hclosing hcloses, rfl⟩, .grouping halike⟩
  | unary isUnary layered le ih =>
    obtain ⟨after, hafter, rfl⟩ := spelledBy_unary.1 hspelled
    obtain ⟨op', after', rfl, hop, hafter'⟩ := List.map_eq_cons_iff.1 hforms.symm
    obtain ⟨e', hlayered, hspelled', halike⟩ := ih hafter hafter'.symm
    have hkind := Token.kind_eq_of_form hop.symm fun hl => (Token.Kind.of_isLiteral hl).2 isUnary
    exact ⟨.unary op' e', .unary (hkind ▸ isUnary) hlayered le,
      spelledBy_unary.2 ⟨after', hspelled', rfl⟩, .unary hkind.symm halike⟩
  | binary takes left_layered left_le right_layered right_lt ihl ihr =>
    obtain ⟨before, after, hbefore, hafter, rfl⟩ := spelledBy_binary.1 hspelled
    rw [List.map_append, List.map_cons] at hforms
    obtain ⟨before', behind, rfl, hbefore', hbehind⟩ := List.map_eq_append_iff.1 hforms.symm
    obtain ⟨op', after', rfl, hop, hafter'⟩ := List.map_eq_cons_iff.1 hbehind
    obtain ⟨left', hleft, hleft_spelled, hlefts⟩ := ihl hbefore hbefore'.symm
    obtain ⟨right', hright, hright_spelled, hrights⟩ := ihr hafter hafter'.symm
    have hkind := Token.kind_eq_of_form hop.symm (Level.not_isLiteral_of_takes takes)
    exact ⟨.binary left' op' right', .binary (hkind ▸ takes) hleft left_le hright right_lt,
      spelledBy_binary.2 ⟨before', after', hleft_spelled, hright_spelled, rfl⟩,
      .binary hlefts hkind.symm hrights⟩

/-- The tree of a source, or the fault that it is refused for. -/
def ofSource (source : String) : Except SyntaxFault Expr :=
  (Parser.ofTokens (TokenStream.scan source .empty).1).parse.1

/-- The forms of the tokens of a source. -/
def forms (source : String) : List Token.Kind :=
  (TokenStream.scan source .empty).1.map Token.form

/-- Sources alike in their tokens have trees alike in their types. -/
theorem exists_alike_of_forms {s s' : String} (h : forms s = forms s') {e : Expr}
    (he : ofSource s = .ok e) : ∃ e', ofSource s' = .ok e' ∧ e.Alike (·.kind = ·.kind) e' := by
  obtain ⟨⟨⟨l, hlayered⟩, hspelled⟩, -⟩ :=
    Parser.parse_ofTokens_eq_ok_iff.1 (Prod.ext he rfl)
  have hforms : (Token.beforeEnd (TokenStream.scan s .empty).1).map Token.form =
      (Token.beforeEnd (TokenStream.scan s' .empty).1).map Token.form := by
    rw [Token.map_form_beforeEnd, Token.map_form_beforeEnd]
    exact congrArg (List.takeWhile _) h
  obtain ⟨e', hlayered', hspelled', halike⟩ := hlayered.exists_alike hspelled hforms
  refine ⟨e', ?_, halike⟩
  exact congrArg Prod.fst (Parser.parse_ofTokens_eq_ok_iff.2 ⟨⟨⟨l, hlayered'⟩, hspelled'⟩, rfl⟩)

/-- Types decide evaluation. Two trees with the same operators and with literals of the same types
have values of one type or the same fault; the type or the fault is computed from the tree without
what its literals hold; and two sources with tokens of the same forms are both refused, have faults
of one cause, or have values of one type. -/
theorem eval_of_types (d : Dialect) :
    (∀ e e' : Expr, e.Alike (· = ·) e' →
      (∃ v w, e.eval d = .ok v ∧ e'.eval d = .ok w ∧ v.kind = w.kind) ∨
        ∃ fault, e.eval d = .error fault ∧ e'.eval d = .error fault) ∧
    (∀ e : Expr, (∀ k, e.outline.kind d = .ok k ↔ ∃ v, e.eval d = .ok v ∧ v.kind = k) ∧
      ∀ fault, e.outline.kind d = .error fault ↔ e.eval d = .error fault) ∧
    ∀ s s' : String, forms s = forms s' →
      (∃ f g, ofSource s = .error f ∧ ofSource s' = .error g) ∨
        ∃ e e', ofSource s = .ok e ∧ ofSource s' = .ok e' ∧
          ((∃ f g, e.eval d = .error f ∧ e'.eval d = .error g ∧ f.cause = g.cause) ∨
            ∃ v w, e.eval d = .ok v ∧ e'.eval d = .ok w ∧ v.kind = w.kind) := by
  refine ⟨fun e e' h => ?_, fun e => ?_, fun s s' h => ?_⟩
  · rcases h.agree_eval (fun t u ht => congrArg Token.kind ht) d with
      hvalues | ⟨cause, op, op', hf, hg, rfl⟩
    · exact .inl hvalues
    · exact .inr ⟨_, hf, hg⟩
  · rw [kind_outline]
    cases e.eval d with
    | error fault => simp [Except.map]
    | ok v => simp [Except.map]
  · cases hs : ofSource s with
    | error f =>
      cases hs' : ofSource s' with
      | error g => exact .inl ⟨f, g, rfl, rfl⟩
      | ok e' =>
        obtain ⟨e, he, -⟩ := exists_alike_of_forms h.symm hs'
        cases hs.symm.trans he
    | ok e =>
      obtain ⟨e', he', halike⟩ := exists_alike_of_forms h hs
      refine .inr ⟨e, e', rfl, he', ?_⟩
      rcases halike.agree_eval (fun t u ht => ht) d with hvalues | ⟨cause, op, op', hf, hg, -⟩
      · exact .inr hvalues
      · exact .inl ⟨_, _, hf, hg, rfl⟩

/-- What becomes of a sum of a number and a truth value is the same for all of them. -/
theorem eval_of_types_sum_boolean :
    forms "1 + true" = forms "2 + false" ∧
      ((∃ f g, ofSource "1 + true" = .error f ∧ ofSource "2 + false" = .error g) ∨
        ∃ e e', ofSource "1 + true" = .ok e ∧ ofSource "2 + false" = .ok e' ∧
          ((∃ f g, e.eval .standard = .error f ∧ e'.eval .standard = .error g ∧
              f.cause = g.cause) ∨
            ∃ v w, e.eval .standard = .ok v ∧ e'.eval .standard = .ok w ∧ v.kind = w.kind)) := by
  have hforms : forms "1 + true" = forms "2 + false" := by decide +kernel
  exact ⟨hforms, (eval_of_types .standard).2.2 _ _ hforms⟩

end Expr

end LoxCalc
