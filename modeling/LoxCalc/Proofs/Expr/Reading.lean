import LoxCalc.Expr.Grammar

/-!
# Readings

The grammar as rules: which tree a level reads from the front of some tokens, and at which token it
has to stop. A chain of operators of one level goes on as long as an operator of that level follows,
so `Chains` starts from the tree to the left of the next operator. Main statements:
`reads_of_parse`, `stops_of_parse`, `Reads.parse_eq` and `Stops.parse_eq`, the rules describe
exactly what `parse` does.
-/

namespace LoxCalc

/-! ### Tokens that are literals -/

/-- The kinds of the tokens that stand for a value on their own. -/
def Token.Kind.isLiteral : Token.Kind → Bool
  | number | string => true
  | keyword .trueWord | keyword .falseWord | keyword .nilWord => true
  | _ => false

theorem Token.Kind.of_isLiteral {k : Token.Kind} (h : k.isLiteral) :
    k ≠ .symbol .leftParen ∧ ¬k.isUnaryOperator := by
  cases k <;> simp_all [isLiteral, isUnaryOperator]

namespace Value

/-- What a token means that stands for a value. -/
def literalData : Value → Token.Data
  | number x => .number x
  | string s => .string s
  | boolean true => .keyword .trueWord
  | boolean false => .keyword .falseWord
  | nil => .keyword .nilWord

theorem ofToken?_eq_some_iff {d : Token.Data} {v : Value} :
    ofToken? d = some v ↔ d = v.literalData := by
  constructor
  · intro h
    unfold ofToken? at h
    split at h <;> simp_all [literalData] <;> subst h <;> rfl
  · rintro rfl
    rcases v with x | s | (_ | _) | _ <;> rfl

theorem isLiteral_kind_literalData (v : Value) : v.literalData.kind.isLiteral := by
  rcases v with x | s | (_ | _) | _ <;> rfl

theorem isLiteral_of_ofToken? {d : Token.Data} {v : Value} (h : ofToken? d = some v) :
    d.kind.isLiteral := by
  rw [ofToken?_eq_some_iff.1 h]
  exact isLiteral_kind_literalData v

theorem not_isLiteral_of_ofToken? {d : Token.Data} (h : ofToken? d = none) :
    ¬d.kind.isLiteral := by
  unfold ofToken? at h
  split at h <;> simp_all [Token.Data.kind, Token.Kind.isLiteral]
  next k htrue hfalse hnil =>
    cases d <;> simp_all

end Value

/-- The unary level takes all unary operators. -/
theorem Token.Kind.isUnaryOperator_iff {k : Token.Kind} :
    k.isUnaryOperator ↔ Level.startsUnary k := by
  unfold isUnaryOperator Level.startsUnary
  split <;> simp_all

namespace Level

/-! ### The order of the levels -/

theorem looseness_tighter_add_one {l : Level} (h : 0 < l.looseness) :
    l.tighter.looseness + 1 = l.looseness := by
  cases l <;> simp_all [tighter, looseness]

theorem zero_lt_looseness_tighter {l : Level} (h : 1 < l.looseness) :
    0 < l.tighter.looseness := by
  have := looseness_tighter_add_one (Nat.zero_lt_of_lt h)
  omega

theorem looseness_injective {l m : Level} (h : l.looseness = m.looseness) : l = m := by
  cases l <;> cases m <;> simp_all [looseness]

theorem looseness_le_equality (l : Level) : l.looseness ≤ equality.looseness := by
  cases l <;> decide

/-- Only the levels of binary operators take any. -/
theorem one_lt_looseness_of_takes {l : Level} {k : Token.Kind} (h : l.takes k) :
    1 < l.looseness := by
  cases l <;> simp_all [takes, looseness]

theorem takes_unique {l m : Level} {k : Token.Kind} (hl : l.takes k) (hm : m.takes k) : l = m := by
  unfold takes at hl
  split at hl <;> cases m <;> simp_all [takes]

end Level

namespace Token

/-! ### Ends of input -/

theorem isEnd_iff {t : Token} : t.isEnd ↔ t.kind = .endOfInput := by simp [isEnd]

theorem kind_eq_symbol_iff {t : Token} {s : Symbol} : t.kind = .symbol s ↔ t.data = .symbol s := by
  rcases t with ⟨_ | _, _, _⟩ <;> simp [kind, Data.kind]

theorem not_isEnd_of_symbol {t : Token} {s : Symbol} (h : t.kind = .symbol s) : ¬t.isEnd := by
  simp [isEnd, h]

theorem not_isEnd_of_startsUnary {t : Token} (h : Level.startsUnary t.kind) : ¬t.isEnd := by
  intro he
  simp [isEnd_iff.1 he, Level.startsUnary] at h

theorem not_isEnd_of_isLiteral {t : Token} (h : t.kind.isLiteral) : ¬t.isEnd := by
  intro he
  simp [isEnd_iff.1 he, Kind.isLiteral] at h

theorem not_isEnd_of_takes {l : Level} {t : Token} (h : l.takes t.kind) : ¬t.isEnd := by
  intro he
  simp [isEnd_iff.1 he, Level.takes] at h

/-- What is left of some tokens when some that are no end of input are taken from the front. -/
def Passes (tokens rest : List Token) : Prop :=
  ∃ read, (∀ t ∈ read, ¬t.isEnd) ∧ tokens = read ++ rest

theorem Passes.refl (tokens : List Token) : Passes tokens tokens := ⟨[], by simp, rfl⟩

theorem Passes.suffix {tokens rest : List Token} (h : Passes tokens rest) : rest <:+ tokens := by
  obtain ⟨read, -, rfl⟩ := h
  exact List.suffix_append read rest

theorem Passes.cons {t : Token} {tokens rest : List Token} (h : Passes tokens rest)
    (ht : ¬t.isEnd) : Passes (t :: tokens) rest := by
  obtain ⟨read, hread, rfl⟩ := h
  exact ⟨t :: read, List.forall_mem_cons.2 ⟨ht, hread⟩, rfl⟩

theorem Passes.trans {tokens middle rest : List Token} (h : Passes tokens middle)
    (h' : Passes middle rest) : Passes tokens rest := by
  obtain ⟨read, hread, rfl⟩ := h
  obtain ⟨read', hread', rfl⟩ := h'
  refine ⟨read ++ read', fun t ht => ?_, (List.append_assoc _ _ _).symm⟩
  rcases List.mem_append.1 ht with ht | ht
  · exact hread t ht
  · exact hread' t ht

end Token

namespace Grammar

mutual

/-- The tree that a level reads from the front of some tokens, and the tokens behind it. -/
inductive Reads : Level → List Token → Expr → List Token → Prop
  | chain {l tokens first rest e rest'} (binary : 1 < l.looseness)
      (left : Reads l.tighter tokens first rest) (more : Chains l first rest e rest') :
      Reads l tokens e rest'
  | unary {op after e rest} (starts : Level.startsUnary op.kind)
      (operand : Reads .unary after e rest) : Reads .unary (op :: after) (.unary op e) rest
  | operand {tokens e rest} (primary : Reads .primary tokens e rest) : Reads .unary tokens e rest
  | literal {t after value} (value_eq : Value.ofToken? t.data = some value) :
      Reads .primary (t :: after) (.literal value) after
  | grouping {left after e right rest} (opens : left.kind = .symbol .leftParen)
      (inner : Reads .equality after e (right :: rest))
      (closes : right.kind = .symbol .rightParen) :
      Reads .primary (left :: after) (.grouping e) rest

/-- The tree that a level makes of a left part and the operators and operands behind it. -/
inductive Chains : Level → Expr → List Token → Expr → List Token → Prop
  | done {l left rest} (ends : ∀ t ∈ rest.head?, ¬l.takes t.kind) : Chains l left rest left rest
  | more {l left op after right rest e rest'} (takes : l.takes op.kind)
      (right_reads : Reads l.tighter after right rest)
      (more : Chains l (.binary left op right) rest e rest') :
      Chains l left (op :: after) e rest'

end

mutual

/-- Where a level has to stop, and why. -/
inductive Stops : Level → List Token → Stop → Prop
  | first {l tokens stop} (binary : 1 < l.looseness) (left : Stops l.tighter tokens stop) :
      Stops l tokens stop
  | chain {l tokens first rest stop} (binary : 1 < l.looseness)
      (left : Reads l.tighter tokens first rest) (more : ChainStops l rest stop) :
      Stops l tokens stop
  | unary {op after stop} (starts : Level.startsUnary op.kind)
      (operand : Stops .unary after stop) : Stops .unary (op :: after) stop
  | operand {tokens stop} (notUnary : ∀ t ∈ tokens.head?, ¬Level.startsUnary t.kind)
      (primary : Stops .primary tokens stop) : Stops .unary tokens stop
  | inner {left after stop} (opens : left.kind = .symbol .leftParen)
      (inner : Stops .equality after stop) : Stops .primary (left :: after) stop
  | unclosed {left after e rest} (opens : left.kind = .symbol .leftParen)
      (inner : Reads .equality after e rest)
      (open_end : ∀ t ∈ rest.head?, t.kind ≠ .symbol .rightParen) :
      Stops .primary (left :: after) ⟨.expectedRightParen, rest⟩
  | nothing {tokens} (none_starts : ∀ t ∈ tokens.head?,
      t.kind ≠ .symbol .leftParen ∧ Value.ofToken? t.data = none) :
      Stops .primary tokens ⟨.expectedExpression, tokens⟩

/-- Where a level has to stop behind a left part. -/
inductive ChainStops : Level → List Token → Stop → Prop
  | right {l op after stop} (takes : l.takes op.kind) (right : Stops l.tighter after stop) :
      ChainStops l (op :: after) stop
  | later {l op after right rest stop} (takes : l.takes op.kind)
      (right_reads : Reads l.tighter after right rest) (more : ChainStops l rest stop) :
      ChainStops l (op :: after) stop

end

/-! ### What the rules pass over -/

open Token (Passes)

mutual

theorem Reads.passes {l tokens e rest} : Reads l tokens e rest → Passes tokens rest
  | .chain _ left more => left.passes.trans more.passes
  | .unary starts operand => operand.passes.cons (Token.not_isEnd_of_startsUnary starts)
  | .operand primary => primary.passes
  | .literal value_eq => (Passes.refl _).cons (Token.not_isEnd_of_isLiteral
      (Value.isLiteral_of_ofToken? value_eq))
  | .grouping opens inner closes =>
    (inner.passes.trans ((Passes.refl _).cons (Token.not_isEnd_of_symbol closes))).cons
      (Token.not_isEnd_of_symbol opens)

theorem Chains.passes {l e tokens e' rest} : Chains l e tokens e' rest → Passes tokens rest
  | .done _ => Passes.refl _
  | .more takes right more =>
    (right.passes.trans more.passes).cons (Token.not_isEnd_of_takes takes)

end

mutual

theorem Stops.passes {l tokens stop} : Stops l tokens stop → Passes tokens stop.rest
  | .first _ left => left.passes
  | .chain _ left more => left.passes.trans more.passes
  | .unary starts operand => operand.passes.cons (Token.not_isEnd_of_startsUnary starts)
  | .operand _ primary => primary.passes
  | .inner opens inner => inner.passes.cons (Token.not_isEnd_of_symbol opens)
  | .unclosed opens inner _ => inner.passes.cons (Token.not_isEnd_of_symbol opens)
  | .nothing _ => Passes.refl _

theorem ChainStops.passes {l tokens stop} : ChainStops l tokens stop → Passes tokens stop.rest
  | .right takes right => right.passes.cons (Token.not_isEnd_of_takes takes)
  | .later takes right more =>
    (right.passes.trans more.passes).cons (Token.not_isEnd_of_takes takes)

end

/-! ### One step of each function -/

section Steps

variable {l : Level} {tokens after : List Token} {op : Token} {stop : Stop}

theorem parse_primary (tokens : List Token) : parse .primary tokens = primary tokens := by
  rw [parse]; simp

theorem parse_unary (tokens : List Token) : parse .unary tokens = unary tokens := by
  rw [parse]; simp

theorem parse_of_error (hl : 1 < l.looseness) (h : parse l.tighter tokens = .error stop) :
    parse l tokens = .error stop := by
  rw [parse]
  cases l <;> simp_all [Level.looseness]

theorem parse_of_ok {first : Parsed tokens} (hl : 1 < l.looseness)
    (h : parse l.tighter tokens = .ok first) : parse l tokens = chain l first := by
  rw [parse]
  cases l <;> simp_all [Level.looseness]

theorem chain_of_not_takes {left : Parsed tokens} (h : ∀ t ∈ left.rest.head?, ¬l.takes t.kind) :
    chain l left = .ok left := by
  rw [chain]
  split
  · rfl
  next op after hrest => rw [if_neg (h op (by simp [hrest]))]

theorem chain_of_error {left : Parsed tokens} (hrest : left.rest = op :: after)
    (ht : l.takes op.kind) (h : parse l.tighter after = .error stop) :
    chain l left = .error stop := by
  rw [chain]
  split
  · simp_all
  next op' after' hrest' =>
    obtain ⟨rfl, rfl⟩ := List.cons.inj (hrest.symm.trans hrest')
    rw [if_pos ht, h]

theorem rest_length_lt {left : Parsed tokens} (hrest : left.rest = op :: after)
    (right : Parsed after) : right.rest.length < tokens.length := by
  have hleft := left.shorter
  have hright := right.shorter
  rw [hrest, List.length_cons] at hleft
  omega

theorem chain_of_ok {left : Parsed tokens} (hrest : left.rest = op :: after) (ht : l.takes op.kind)
    {right : Parsed after} (h : parse l.tighter after = .ok right) :
    chain l left =
      chain l ⟨.binary left.expr op right.expr, right.rest, rest_length_lt hrest right⟩ := by
  rw [chain]
  split
  · simp_all
  next op' after' hrest' =>
    obtain ⟨rfl, rfl⟩ := List.cons.inj (hrest.symm.trans hrest')
    rw [if_pos ht, h]

theorem unary_of_not_unary (h : ∀ t ∈ tokens.head?, ¬Level.startsUnary t.kind) :
    unary tokens = primary tokens := by
  rw [unary.eq_def]
  split
  · rfl
  next op after => rw [if_neg (h op (by simp))]

theorem Reads.not_unary {e : Expr} {rest : List Token} (h : Reads .primary tokens e rest) :
    ∀ t ∈ tokens.head?, ¬Level.startsUnary t.kind := by
  cases h with
  | chain binary => simp [Level.looseness] at binary
  | literal value_eq =>
    have := (Token.Kind.of_isLiteral (Value.isLiteral_of_ofToken? value_eq)).2
    rintro t ⟨⟩
    rwa [← Token.Kind.isUnaryOperator_iff]
  | grouping opens => simp [opens, Level.startsUnary]

theorem unary_of_error (hop : Level.startsUnary op.kind) (h : unary after = .error stop) :
    unary (op :: after) = .error stop := by
  rw [unary, if_pos hop, h]

theorem unary_of_ok (hop : Level.startsUnary op.kind) {operand : Parsed after}
    (h : unary after = .ok operand) :
    ∃ r : Parsed (op :: after), unary (op :: after) = .ok r ∧
      r.expr = .unary op operand.expr ∧ r.rest = operand.rest := by
  rw [unary, if_pos hop, h]
  exact ⟨_, rfl, rfl, rfl⟩

theorem primary_of_literal (after : List Token) {value : Value}
    (h : Value.ofToken? op.data = some value) : ∃ r : Parsed (op :: after),
      primary (op :: after) = .ok r ∧ r.expr = .literal value ∧ r.rest = after := by
  have hopens : op.kind ≠ .symbol .leftParen :=
    (Token.Kind.of_isLiteral (Value.isLiteral_of_ofToken? h)).1
  rw [primary, if_neg hopens, h]
  exact ⟨_, rfl, rfl, rfl⟩

theorem primary_of_nothing (h : ∀ t ∈ tokens.head?,
    t.kind ≠ .symbol .leftParen ∧ Value.ofToken? t.data = none) :
    primary tokens = .error ⟨.expectedExpression, tokens⟩ := by
  rw [primary.eq_def]
  split
  · rfl
  next t after =>
    obtain ⟨hopens, hnone⟩ := h t (by simp)
    rw [if_neg hopens, hnone]

theorem primary_of_error (hopens : op.kind = .symbol .leftParen)
    (h : parse .equality after = .error stop) : primary (op :: after) = .error stop := by
  rw [primary, if_pos hopens, h]

theorem primary_of_closed {inner : Parsed after} {close : Token} {rest : List Token}
    (hopens : op.kind = .symbol .leftParen) (h : parse .equality after = .ok inner)
    (hrest : inner.rest = close :: rest) (hcloses : close.kind = .symbol .rightParen) :
    ∃ r : Parsed (op :: after), primary (op :: after) = .ok r ∧
      r.expr = .grouping inner.expr ∧ r.rest = rest := by
  rw [primary, if_pos hopens, h]
  dsimp only
  split
  · simp_all
  next close' rest' hrest' =>
    obtain ⟨rfl, rfl⟩ := List.cons.inj (hrest.symm.trans hrest')
    rw [if_pos hcloses]
    exact ⟨_, rfl, rfl, rfl⟩

theorem primary_of_unclosed {inner : Parsed after} (hopens : op.kind = .symbol .leftParen)
    (h : parse .equality after = .ok inner)
    (hrest : ∀ t ∈ inner.rest.head?, t.kind ≠ .symbol .rightParen) :
    primary (op :: after) = .error ⟨.expectedRightParen, inner.rest⟩ := by
  rw [primary, if_pos hopens, h]
  dsimp only
  split
  next hnil => rw [hnil]
  next close rest hcons => rw [if_neg (hrest close (by simp [hcons])), hcons]

end Steps

/-! ### The rules describe the function -/

/-- What a result says about the tokens it was computed from. -/
def Explains (l : Level) {tokens : List Token} : Except Stop (Parsed tokens) → Prop
  | .ok r => Reads l tokens r.expr r.rest
  | .error stop => Stops l tokens stop

/-- What a result says about the left part it was computed from. -/
def ChainExplains (l : Level) {tokens : List Token} (left : Parsed tokens) :
    Except Stop (Parsed tokens) → Prop
  | .ok r => Chains l left.expr left.rest r.expr r.rest
  | .error stop => ChainStops l left.rest stop

theorem one_lt_looseness {l : Level} (hp : l ≠ .primary) (hu : l ≠ .unary) : 1 < l.looseness := by
  cases l <;> simp_all [Level.looseness]

theorem Explains.unary_of_primary {tokens : List Token} {r : Except Stop (Parsed tokens)}
    (h : Explains .primary r) (hu : ∀ t ∈ tokens.head?, ¬Level.startsUnary t.kind) :
    Explains .unary r := by
  cases r with
  | ok r => exact .operand h
  | error stop => exact .operand hu h

/-- The result of every call of the grammar follows its rules. -/
theorem explains_parse (l : Level) (tokens : List Token) : Explains l (parse l tokens) := by
  apply parse.induct (fun l tokens => Explains l (parse l tokens))
    (fun l _ left => ChainExplains l left (chain l left))
    (fun tokens => Explains .unary (unary tokens))
    (fun tokens => Explains .primary (primary tokens))
  case case1 =>
    intro tokens ih
    rwa [parse_primary]
  case case2 =>
    intro tokens _ ih
    rwa [parse_unary]
  case case3 =>
    intro l tokens hp hu stop h ih
    have hl := one_lt_looseness hp hu
    rw [h] at ih
    rw [parse_of_error hl h]
    exact .first hl ih
  case case4 =>
    intro l tokens hp hu first h ih more
    have hl := one_lt_looseness hp hu
    rw [h] at ih
    rw [parse_of_ok hl h]
    cases hc : chain l first with
    | error stop =>
      rw [hc] at more
      exact .chain hl ih more
    | ok r =>
      rw [hc] at more
      exact .chain hl ih more
  case case5 =>
    intro l tokens left hrest
    have ends : ∀ t ∈ left.rest.head?, ¬l.takes t.kind := by simp [hrest]
    rw [chain_of_not_takes ends]
    exact .done ends
  case case6 =>
    intro l tokens left op after hrest ht stop h ih
    rw [h] at ih
    rw [chain_of_error hrest ht h, ChainExplains, hrest]
    exact .right ht ih
  case case7 =>
    intro l tokens left op after hrest ht right h ih more
    rw [h] at ih
    rw [chain_of_ok hrest ht h]
    cases hc : chain l ⟨.binary left.expr op right.expr, right.rest, _⟩ with
    | error stop =>
      rw [hc] at more
      rw [ChainExplains, hrest]
      exact .later ht ih more
    | ok r =>
      rw [hc] at more
      rw [ChainExplains, hrest]
      exact .more ht ih more
  case case8 =>
    intro l tokens left op after hrest ht
    have ends : ∀ t ∈ left.rest.head?, ¬l.takes t.kind := by simpa [hrest] using ht
    rw [chain_of_not_takes ends]
    exact .done ends
  case case9 =>
    intro ih
    rw [unary_of_not_unary (by simp)]
    exact ih.unary_of_primary (by simp)
  case case10 =>
    intro op after hop stop h ih
    rw [h] at ih
    rw [unary_of_error hop h]
    exact .unary hop ih
  case case11 =>
    intro op after hop operand h ih
    rw [h] at ih
    obtain ⟨r, hr, hexpr, hrest⟩ := unary_of_ok hop h
    rw [hr, Explains, hexpr, hrest]
    exact .unary hop ih
  case case12 =>
    intro op after hop ih
    rw [unary_of_not_unary (by simpa using hop)]
    exact ih.unary_of_primary (by simpa using hop)
  case case13 =>
    rw [primary_of_nothing (by simp)]
    exact .nothing (by simp)
  case case14 =>
    intro op after hopens stop h ih
    rw [h] at ih
    rw [primary_of_error hopens h]
    exact .inner hopens ih
  case case15 =>
    intro op after hopens inner h hrest ih
    rw [h] at ih
    have open_end : ∀ t ∈ inner.rest.head?, t.kind ≠ .symbol .rightParen := by simp [hrest]
    rw [primary_of_unclosed hopens h open_end]
    exact .unclosed hopens ih open_end
  case case16 =>
    intro op after hopens inner h close rest hrest hcloses ih
    rw [h] at ih
    obtain ⟨r, hr, hexpr, hr_rest⟩ := primary_of_closed hopens h hrest hcloses
    rw [hr, Explains, hexpr, hr_rest]
    rw [Explains, hrest] at ih
    exact .grouping hopens ih hcloses
  case case17 =>
    intro op after hopens inner h close rest hrest hcloses ih
    rw [h] at ih
    have open_end : ∀ t ∈ inner.rest.head?, t.kind ≠ .symbol .rightParen := by
      simpa [hrest] using hcloses
    rw [primary_of_unclosed hopens h open_end]
    exact .unclosed hopens ih open_end
  case case18 =>
    intro t after _ value h
    obtain ⟨r, hr, hexpr, hrest⟩ := primary_of_literal after h
    rw [hr, Explains, hexpr, hrest]
    exact .literal h
  case case19 =>
    intro t after hopens h
    have none_starts : ∀ u ∈ (t :: after).head?,
        u.kind ≠ .symbol .leftParen ∧ Value.ofToken? u.data = none := by simpa using ⟨hopens, h⟩
    rw [primary_of_nothing none_starts]
    exact .nothing none_starts

theorem reads_of_parse {l : Level} {tokens : List Token} {r : Parsed tokens}
    (h : parse l tokens = .ok r) : Reads l tokens r.expr r.rest := by
  have := explains_parse l tokens
  rwa [h] at this

theorem stops_of_parse {l : Level} {tokens : List Token} {stop : Stop}
    (h : parse l tokens = .error stop) : Stops l tokens stop := by
  have := explains_parse l tokens
  rwa [h] at this

mutual

/-- What the rules read is what `parse` returns. -/
theorem Reads.parse_eq {l tokens e rest} : Reads l tokens e rest →
    ∃ r : Parsed tokens, parse l tokens = .ok r ∧ r.expr = e ∧ r.rest = rest
  | .chain binary left more => by
    obtain ⟨first, hfirst, hexpr, hrest⟩ := left.parse_eq
    rw [parse_of_ok binary hfirst]
    exact more.chain_eq first hexpr hrest
  | .unary starts operand => by
    obtain ⟨inner, hinner, rfl, rfl⟩ := operand.parse_eq
    rw [parse_unary] at hinner ⊢
    exact unary_of_ok starts hinner
  | .operand primary => by
    obtain ⟨r, hr, rfl, rfl⟩ := primary.parse_eq
    rw [parse_primary] at hr
    rw [parse_unary, unary_of_not_unary primary.not_unary]
    exact ⟨r, hr, rfl, rfl⟩
  | .literal value_eq => by
    rw [parse_primary]
    exact primary_of_literal _ value_eq
  | .grouping opens inner closes => by
    obtain ⟨r, hr, rfl, hrest⟩ := inner.parse_eq
    rw [parse_primary]
    exact primary_of_closed opens hr hrest closes

theorem Chains.chain_eq {l e tokens e' rest} : Chains l e tokens e' rest →
    ∀ {all : List Token} (left : Parsed all), left.expr = e → left.rest = tokens →
      ∃ r : Parsed all, chain l left = .ok r ∧ r.expr = e' ∧ r.rest = rest
  | .done ends, _, left, hexpr, hrest => by
    subst hrest
    exact ⟨left, chain_of_not_takes ends, hexpr, rfl⟩
  | .more takes right_reads more, _, left, hexpr, hrest => by
    obtain ⟨right, hright, hright_expr, hright_rest⟩ := right_reads.parse_eq
    rw [chain_of_ok hrest takes hright]
    exact more.chain_eq _ (by rw [hexpr, hright_expr]) hright_rest

end

mutual

/-- Where the rules stop, `parse` does. -/
theorem Stops.parse_eq {l tokens stop} : Stops l tokens stop → parse l tokens = .error stop
  | .first binary left => parse_of_error binary left.parse_eq
  | .chain binary left more => by
    obtain ⟨first, hfirst, -, hrest⟩ := left.parse_eq
    rw [parse_of_ok binary hfirst]
    exact more.chain_eq first hrest
  | .unary starts operand => by
    have hinner := operand.parse_eq
    rw [parse_unary] at hinner ⊢
    exact unary_of_error starts hinner
  | .operand notUnary primary => by
    rw [parse_unary, unary_of_not_unary notUnary, ← parse_primary]
    exact primary.parse_eq
  | .inner opens inner => by
    rw [parse_primary]
    exact primary_of_error opens inner.parse_eq
  | .unclosed opens inner open_end => by
    obtain ⟨r, hr, -, rfl⟩ := inner.parse_eq
    rw [parse_primary]
    exact primary_of_unclosed opens hr open_end
  | .nothing none_starts => by
    rw [parse_primary]
    exact primary_of_nothing none_starts

theorem ChainStops.chain_eq {l tokens stop} : ChainStops l tokens stop →
    ∀ {all : List Token} (left : Parsed all), left.rest = tokens → chain l left = .error stop
  | .right takes right, _, _, hrest => chain_of_error hrest takes right.parse_eq
  | .later takes right_reads more, _, _, hrest => by
    obtain ⟨right, hright, -, hright_rest⟩ := right_reads.parse_eq
    rw [chain_of_ok hrest takes hright]
    exact more.chain_eq _ hright_rest

end

end Grammar

end LoxCalc
