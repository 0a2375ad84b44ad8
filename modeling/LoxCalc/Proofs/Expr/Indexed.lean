import LoxCalc.Proofs.Expr.Counter

/-!
# Reading by position

The functions here keep the whole list of tokens and look at tokens only by index. An index can be
out of range, and a node can only be made with an operator of the right kind; either stops the
reading. Main statement: `Guarded.answersIndexed_eq`, to a parser at or before the first end of
input neither happens, and it does what it does with the list of the tokens to come.
-/

namespace LoxCalc

namespace Grammar

/-- Why reading by position stops: at a fault in the tokens, at an index that is out of range, or
because a node would get a token that is no operator of its kind. -/
inductive Halt
  | fault (f : SyntaxFault) (place : Nat)
  | outOfRange (place : Nat)
  | noOperator (op : Token)

/-- The token at an index. -/
def look (tokens : List Token) (place : Nat) : Except Halt Token :=
  match tokens[place]? with
  | none => .error (.outOfRange place)
  | some t => .ok t

/-- The place behind a token, which for an end of input is its own. -/
def past (t : Token) (place : Nat) : Nat := if t.isEnd then place else place + 1

theorem le_past (t : Token) (place : Nat) : place ≤ past t place := by
  unfold past
  split <;> omega

theorem past_of_not_isEnd {t : Token} (h : ¬t.isEnd) (place : Nat) : past t place = place + 1 :=
  if_neg h

theorem lt_length_of_look {tokens : List Token} {place : Nat} {t : Token}
    (h : look tokens place = .ok t) : place < tokens.length := by
  unfold look at h
  split at h
  · cases h
  next hget => exact (List.getElem?_eq_some_iff.1 hget).1

/-- A tree read from a place on, and the place behind it. -/
structure Located (start : Nat) where
  expr : Expr
  place : Nat
  further : start < place

mutual

/-- An expression of a level, from a place on. -/
def parseAt (tokens : List Token) (l : Level) (start : Nat) : Except Halt (Located start) :=
  if _hp : l = .primary then primaryAt tokens start
  else if l = .unary then unaryAt tokens start
  else
    match parseAt tokens l.tighter start with
    | .error halt => .error halt
    | .ok first => chainAt tokens l first
  termination_by 7 * (tokens.length - start) + l.looseness + 1
  decreasing_by
    · omega
    · simp_all [Level.looseness]
    · have := Level.looseness_tighter_lt _hp
      omega
    · have := first.further
      omega

/-- The rest of a chain of binary operators of one level, whose left part has been read. -/
def chainAt (tokens : List Token) (l : Level) {start : Nat} (left : Located start) :
    Except Halt (Located start) :=
  match _h : look tokens left.place with
  | .error halt => .error halt
  | .ok op =>
    if _ht : l.takes op.kind then
      match parseAt tokens l.tighter (past op left.place) with
      | .error halt => .error halt
      | .ok right =>
        if op.kind.isBinaryOperator then
          chainAt tokens l ⟨.binary left.expr op right.expr, right.place,
            left.further.trans ((le_past op _).trans_lt right.further)⟩
        else .error (.noOperator op)
    else .ok left
  termination_by 7 * (tokens.length - left.place)
  decreasing_by
    · have := lt_length_of_look _h
      have := Level.looseness_tighter_le l
      rw [past_of_not_isEnd (Token.not_isEnd_of_takes _ht)]
      omega
    · have := lt_length_of_look _h
      have := (le_past op left.place).trans_lt right.further
      omega

/-- An operand with any number of unary operators before it, from a place on. -/
def unaryAt (tokens : List Token) (start : Nat) : Except Halt (Located start) :=
  match _h : look tokens start with
  | .error halt => .error halt
  | .ok op =>
    if _hu : Level.startsUnary op.kind then
      match unaryAt tokens (past op start) with
      | .error halt => .error halt
      | .ok operand =>
        if op.kind.isUnaryOperator then
          .ok ⟨.unary op operand.expr, operand.place, (le_past op start).trans_lt operand.further⟩
        else .error (.noOperator op)
    else primaryAt tokens start
  termination_by 7 * (tokens.length - start) + 1
  decreasing_by
    · have := lt_length_of_look _h
      rw [past_of_not_isEnd (Token.not_isEnd_of_startsUnary _hu)]
      omega
    · omega

/-- A literal, or an expression in parentheses, from a place on. -/
def primaryAt (tokens : List Token) (start : Nat) : Except Halt (Located start) :=
  match _h : look tokens start with
  | .error halt => .error halt
  | .ok t =>
    if _hopens : t.kind = .symbol .leftParen then
      match parseAt tokens .equality (past t start) with
      | .error halt => .error halt
      | .ok inner =>
        match look tokens inner.place with
        | .error halt => .error halt
        | .ok close =>
          if close.kind = .symbol .rightParen then
            .ok ⟨.grouping inner.expr, past close inner.place,
              ((le_past t start).trans_lt inner.further).trans_le (le_past close _)⟩
          else .error (.fault ⟨.expectedRightParen, close⟩ inner.place)
    else
      match hvalue : Value.ofToken? t.data with
      | some value => .ok ⟨.literal value, past t start, by
          rw [past_of_not_isEnd (Token.not_isEnd_of_isLiteral (Value.isLiteral_of_ofToken? hvalue))]
          exact Nat.lt_succ_self start⟩
      | none => .error (.fault ⟨.expectedExpression, t⟩ start)
  termination_by 7 * (tokens.length - start)
  decreasing_by
    have := lt_length_of_look _h
    rw [past_of_not_isEnd (Token.not_isEnd_of_symbol _hopens)]
    simp only [Level.looseness]
    omega

end

/-! ### One step of each function -/

section Steps

variable {tokens : List Token} {l : Level} {start : Nat} {op : Token} {halt : Halt}

theorem parseAt_primary : parseAt tokens .primary start = primaryAt tokens start := by
  rw [parseAt]; simp

theorem parseAt_unary : parseAt tokens .unary start = unaryAt tokens start := by
  rw [parseAt]; simp

theorem parseAt_of_error (hl : 1 < l.looseness) (h : parseAt tokens l.tighter start = .error halt) :
    parseAt tokens l start = .error halt := by
  rw [parseAt]
  cases l <;> simp_all [Level.looseness]

theorem parseAt_of_ok {first : Located start} (hl : 1 < l.looseness)
    (h : parseAt tokens l.tighter start = .ok first) :
    parseAt tokens l start = chainAt tokens l first := by
  rw [parseAt]
  cases l <;> simp_all [Level.looseness]

section Chain

variable {left : Located start} (hlook : look tokens left.place = .ok op)

include hlook

theorem chainAt_of_look : chainAt tokens l left =
    if l.takes op.kind then
      match parseAt tokens l.tighter (past op left.place) with
      | .error halt => .error halt
      | .ok right =>
        if op.kind.isBinaryOperator then
          chainAt tokens l ⟨.binary left.expr op right.expr, right.place,
            left.further.trans ((le_past op _).trans_lt right.further)⟩
        else .error (.noOperator op)
    else .ok left := by
  rw [chainAt]
  split
  next h => simp [hlook] at h
  next h =>
    obtain rfl := Except.ok.inj (hlook.symm.trans h)
    rw [dite_eq_ite]
    congr 1
    cases parseAt tokens l.tighter (past op left.place) <;> rfl

theorem chainAt_of_not_takes (ht : ¬l.takes op.kind) : chainAt tokens l left = .ok left := by
  rw [chainAt_of_look hlook, if_neg ht]

theorem chainAt_of_error (ht : l.takes op.kind)
    (h : parseAt tokens l.tighter (past op left.place) = .error halt) :
    chainAt tokens l left = .error halt := by
  rw [chainAt_of_look hlook, if_pos ht, h]

theorem chainAt_of_ok (ht : l.takes op.kind) {right : Located (past op left.place)}
    (h : parseAt tokens l.tighter (past op left.place) = .ok right) :
    ∃ whole : Located start, chainAt tokens l left = chainAt tokens l whole ∧
      whole.expr = .binary left.expr op right.expr ∧ whole.place = right.place := by
  have hop : op.kind.isBinaryOperator := Token.Kind.isBinaryOperator_iff.2 ⟨l, ht⟩
  rw [chainAt_of_look hlook, if_pos ht, h]
  exact ⟨_, if_pos hop, rfl, rfl⟩

end Chain

section Operand

variable (hlook : look tokens start = .ok op)

include hlook

theorem unaryAt_of_look : unaryAt tokens start =
    if Level.startsUnary op.kind then
      match unaryAt tokens (past op start) with
      | .error halt => .error halt
      | .ok operand =>
        if op.kind.isUnaryOperator then
          .ok ⟨.unary op operand.expr, operand.place, (le_past op start).trans_lt operand.further⟩
        else .error (.noOperator op)
    else primaryAt tokens start := by
  rw [unaryAt]
  split
  next h => simp [hlook] at h
  next h =>
    obtain rfl := Except.ok.inj (hlook.symm.trans h)
    rw [dite_eq_ite]

theorem unaryAt_of_not_unary (hop : ¬Level.startsUnary op.kind) :
    unaryAt tokens start = primaryAt tokens start := by
  rw [unaryAt_of_look hlook, if_neg hop]

theorem unaryAt_of_error (hop : Level.startsUnary op.kind)
    (h : unaryAt tokens (past op start) = .error halt) : unaryAt tokens start = .error halt := by
  rw [unaryAt_of_look hlook, if_pos hop, h]

theorem unaryAt_of_ok (hop : Level.startsUnary op.kind) {operand : Located (past op start)}
    (h : unaryAt tokens (past op start) = .ok operand) :
    ∃ whole : Located start, unaryAt tokens start = .ok whole ∧
      whole.expr = .unary op operand.expr ∧ whole.place = operand.place := by
  have hunary : op.kind.isUnaryOperator := Token.Kind.isUnaryOperator_iff.2 hop
  rw [unaryAt_of_look hlook, if_pos hop, h]
  exact ⟨_, if_pos hunary, rfl, rfl⟩

theorem primaryAt_of_opens (hopens : op.kind = .symbol .leftParen) : primaryAt tokens start =
    match parseAt tokens .equality (past op start) with
    | .error halt => .error halt
    | .ok inner =>
      match look tokens inner.place with
      | .error halt => .error halt
      | .ok close =>
        if close.kind = .symbol .rightParen then
          .ok ⟨.grouping inner.expr, past close inner.place,
            ((le_past op start).trans_lt inner.further).trans_le (le_past close _)⟩
        else .error (.fault ⟨.expectedRightParen, close⟩ inner.place) := by
  rw [primaryAt]
  split
  next h => simp [hlook] at h
  next h =>
    obtain rfl := Except.ok.inj (hlook.symm.trans h)
    rw [dif_pos hopens]

theorem primaryAt_of_error (hopens : op.kind = .symbol .leftParen)
    (h : parseAt tokens .equality (past op start) = .error halt) :
    primaryAt tokens start = .error halt := by
  rw [primaryAt_of_opens hlook hopens, h]

variable {inner : Located (past op start)} {close : Token}

theorem primaryAt_of_closed (hopens : op.kind = .symbol .leftParen)
    (h : parseAt tokens .equality (past op start) = .ok inner)
    (hclose : look tokens inner.place = .ok close) (hcloses : close.kind = .symbol .rightParen) :
    ∃ whole : Located start, primaryAt tokens start = .ok whole ∧
      whole.expr = .grouping inner.expr ∧ whole.place = past close inner.place := by
  rw [primaryAt_of_opens hlook hopens, h]
  dsimp only
  rw [hclose]
  exact ⟨_, if_pos hcloses, rfl, rfl⟩

theorem primaryAt_of_unclosed (hopens : op.kind = .symbol .leftParen)
    (h : parseAt tokens .equality (past op start) = .ok inner)
    (hclose : look tokens inner.place = .ok close) (hcloses : close.kind ≠ .symbol .rightParen) :
    primaryAt tokens start = .error (.fault ⟨.expectedRightParen, close⟩ inner.place) := by
  rw [primaryAt_of_opens hlook hopens, h]
  dsimp only
  rw [hclose]
  exact if_neg hcloses

theorem primaryAt_of_literal {value : Value} (h : Value.ofToken? op.data = some value) :
    ∃ whole : Located start, primaryAt tokens start = .ok whole ∧
      whole.expr = .literal value ∧ whole.place = past op start := by
  have hopens : op.kind ≠ .symbol .leftParen :=
    (Token.Kind.of_isLiteral (Value.isLiteral_of_ofToken? h)).1
  rw [primaryAt]
  split
  next h' => simp [hlook] at h'
  next h' =>
    obtain rfl := Except.ok.inj (hlook.symm.trans h')
    rw [dif_neg hopens]
    split
    next value' hvalue =>
      obtain rfl := Option.some.inj (h.symm.trans hvalue)
      exact ⟨_, rfl, rfl, rfl⟩
    next hvalue => simp [h] at hvalue

theorem primaryAt_of_nothing (hopens : op.kind ≠ .symbol .leftParen)
    (h : Value.ofToken? op.data = none) :
    primaryAt tokens start = .error (.fault ⟨.expectedExpression, op⟩ start) := by
  rw [primaryAt]
  split
  next h' => simp [hlook] at h'
  next h' =>
    obtain rfl := Except.ok.inj (hlook.symm.trans h')
    rw [dif_neg hopens]
    split
    next hvalue => simp [h] at hvalue
    next => rfl

end Operand

end Steps

/-! ### Places and the tokens from there on -/

section Places

variable {tokens rest after : List Token} {place : Nat} {t : Token}

theorem look_of_drop (h : tokens.drop place = t :: after) : look tokens place = .ok t := by
  have hget : tokens[place]? = some t := by
    rw [← List.head?_drop, h]
    rfl
  rw [look, hget]

theorem drop_past (h : tokens.drop place = t :: after) (ht : ¬t.isEnd) :
    tokens.drop (past t place) = after := by
  rw [past_of_not_isEnd ht, ← List.drop_drop, h]
  rfl

theorem place_eq (h : tokens.drop place = rest) (hne : rest ≠ []) :
    place = tokens.length - rest.length := by
  have hlength := congrArg List.length h
  have hpos := List.length_pos_iff.2 hne
  rw [List.length_drop] at hlength
  omega

end Places

/-- Whether there is an end of input among some tokens. -/
def HasEnd (tokens : List Token) : Prop := ∃ t ∈ tokens, t.isEnd

theorem HasEnd.exists_cons {tokens : List Token} (h : HasEnd tokens) :
    ∃ t after, tokens = t :: after := by
  obtain ⟨t, ht, -⟩ := h
  exact List.exists_cons_of_ne_nil (List.ne_nil_of_mem ht)

theorem HasEnd.tail {t : Token} {after : List Token} (h : HasEnd (t :: after)) (ht : ¬t.isEnd) :
    HasEnd after := by
  obtain ⟨u, hu, hend⟩ := h
  rcases List.mem_cons.1 hu with rfl | hu
  · exact absurd hend ht
  · exact ⟨u, hu, hend⟩

theorem HasEnd.passes {tokens rest : List Token} (h : HasEnd tokens)
    (hpass : Token.Passes tokens rest) : HasEnd rest := by
  obtain ⟨t, ht, hend⟩ := h
  obtain ⟨read, hread, rfl⟩ := hpass
  rcases List.mem_append.1 ht with ht | ht
  · exact absurd hend (hread t ht)
  · exact ⟨t, ht, hend⟩

/-- The fault that stops reading by position where the rules stop. -/
def haltOf (tokens : List Token) (stop : Stop) : Halt :=
  .fault ⟨stop.cause, stop.rest.headD (.endOn 1)⟩ (tokens.length - stop.rest.length)

theorem haltOf_eq {tokens after : List Token} {place : Nat} {t : Token}
    (h : tokens.drop place = t :: after) (cause : Cause) :
    haltOf tokens ⟨cause, t :: after⟩ = .fault ⟨cause, t⟩ place := by
  rw [place_eq h (List.cons_ne_nil t after)]
  rfl

mutual

/-- What the rules read is read by position. -/
theorem Reads.parseAt_eq {all : List Token} {l tokens e rest} : Reads l tokens e rest →
    ∀ {start : Nat}, all.drop start = tokens → HasEnd tokens →
      ∃ found : Located start, parseAt all l start = .ok found ∧ found.expr = e ∧
        all.drop found.place = rest
  | .chain binary left more, _, hstart, hend => by
    obtain ⟨first, hfirst, hexpr, hplace⟩ := left.parseAt_eq hstart hend
    rw [parseAt_of_ok binary hfirst]
    exact more.chainAt_eq first hexpr hplace (hend.passes left.passes)
  | .unary starts operand, _, hstart, hend => by
    have hop := Token.not_isEnd_of_startsUnary starts
    have hlook := look_of_drop hstart
    obtain ⟨inner, hinner, rfl, rfl⟩ := operand.parseAt_eq (drop_past hstart hop) (hend.tail hop)
    rw [parseAt_unary] at hinner ⊢
    obtain ⟨whole, hwhole, hexpr, hplace⟩ := unaryAt_of_ok hlook starts hinner
    exact ⟨whole, hwhole, hexpr, by rw [hplace]⟩
  | .operand primary, _, hstart, hend => by
    obtain ⟨found, hfound, hexpr, hplace⟩ := primary.parseAt_eq hstart hend
    obtain ⟨t, after, rfl⟩ := hend.exists_cons
    have hlook := look_of_drop hstart
    rw [parseAt_primary] at hfound
    rw [parseAt_unary, unaryAt_of_not_unary hlook (primary.not_unary t rfl)]
    exact ⟨found, hfound, hexpr, hplace⟩
  | .literal value_eq, _, hstart, hend => by
    have ht := Token.not_isEnd_of_isLiteral (Value.isLiteral_of_ofToken? value_eq)
    obtain ⟨found, hfound, hexpr, hplace⟩ := primaryAt_of_literal (look_of_drop hstart) value_eq
    rw [parseAt_primary]
    exact ⟨found, hfound, hexpr, by rw [hplace, drop_past hstart ht]⟩
  | .grouping opens inner closes, _, hstart, hend => by
    have hopens := Token.not_isEnd_of_symbol opens
    obtain ⟨found, hfound, rfl, hclose⟩ :=
      inner.parseAt_eq (drop_past hstart hopens) (hend.tail hopens)
    obtain ⟨whole, hwhole, hexpr, hplace⟩ :=
      primaryAt_of_closed (look_of_drop hstart) opens hfound (look_of_drop hclose) closes
    have hcloses := Token.not_isEnd_of_symbol closes
    rw [parseAt_primary]
    exact ⟨whole, hwhole, hexpr, by rw [hplace, drop_past hclose hcloses]⟩

theorem Chains.chainAt_eq {all : List Token} {l e tokens e' rest} : Chains l e tokens e' rest →
    ∀ {start : Nat} (left : Located start), left.expr = e → all.drop left.place = tokens →
      HasEnd tokens → ∃ found : Located start, chainAt all l left = .ok found ∧ found.expr = e' ∧
        all.drop found.place = rest
  | .done ends, _, left, hexpr, hleft, hend => by
    obtain ⟨t, after, rfl⟩ := hend.exists_cons
    exact ⟨left, chainAt_of_not_takes (look_of_drop hleft) (ends t rfl), hexpr, hleft⟩
  | .more takes right_reads more, _, left, hexpr, hleft, hend => by
    have hop := Token.not_isEnd_of_takes takes
    have hafter := hend.tail hop
    obtain ⟨right, hright, hright_expr, hright_place⟩ :=
      right_reads.parseAt_eq (drop_past hleft hop) hafter
    obtain ⟨whole, hwhole, hwhole_expr, hwhole_place⟩ :=
      chainAt_of_ok (look_of_drop hleft) takes hright
    rw [hwhole]
    exact more.chainAt_eq whole (by rw [hwhole_expr, hexpr, hright_expr])
      (by rw [hwhole_place, hright_place]) (hafter.passes right_reads.passes)

end

mutual

/-- Where the rules stop, reading by position does. -/
theorem Stops.parseAt_eq {all : List Token} {l tokens stop} : Stops l tokens stop →
    ∀ {start : Nat}, all.drop start = tokens → HasEnd tokens →
      parseAt all l start = .error (haltOf all stop)
  | .first binary left, _, hstart, hend => parseAt_of_error binary (left.parseAt_eq hstart hend)
  | .chain binary left more, _, hstart, hend => by
    obtain ⟨first, hfirst, hexpr, hplace⟩ := left.parseAt_eq hstart hend
    rw [parseAt_of_ok binary hfirst]
    exact more.chainAt_eq first hplace (hend.passes left.passes)
  | .unary starts operand, _, hstart, hend => by
    have hop := Token.not_isEnd_of_startsUnary starts
    have hinner := operand.parseAt_eq (drop_past hstart hop) (hend.tail hop)
    rw [parseAt_unary] at hinner ⊢
    exact unaryAt_of_error (look_of_drop hstart) starts hinner
  | .operand notUnary primary, _, hstart, hend => by
    have hprimary := primary.parseAt_eq hstart hend
    obtain ⟨t, after, rfl⟩ := hend.exists_cons
    rw [parseAt_unary, unaryAt_of_not_unary (look_of_drop hstart) (notUnary t rfl),
      ← parseAt_primary, hprimary]
  | .inner opens inner, _, hstart, hend => by
    have hopens := Token.not_isEnd_of_symbol opens
    have hinner := inner.parseAt_eq (drop_past hstart hopens) (hend.tail hopens)
    rw [parseAt_primary]
    exact primaryAt_of_error (look_of_drop hstart) opens hinner
  | .unclosed opens inner open_end, _, hstart, hend => by
    have hopens := Token.not_isEnd_of_symbol opens
    have hafter := hend.tail hopens
    obtain ⟨found, hfound, -, hclose⟩ := inner.parseAt_eq (drop_past hstart hopens) hafter
    obtain ⟨t, after, rfl⟩ := (hafter.passes inner.passes).exists_cons
    rw [parseAt_primary, haltOf_eq hclose]
    exact primaryAt_of_unclosed (look_of_drop hstart) opens hfound (look_of_drop hclose)
      (open_end t rfl)
  | .nothing none_starts, _, hstart, hend => by
    obtain ⟨t, after, rfl⟩ := hend.exists_cons
    obtain ⟨hopens, hnone⟩ := none_starts t rfl
    rw [parseAt_primary, haltOf_eq hstart]
    exact primaryAt_of_nothing (look_of_drop hstart) hopens hnone

theorem ChainStops.chainAt_eq {all : List Token} {l tokens stop} : ChainStops l tokens stop →
    ∀ {start : Nat} (left : Located start), all.drop left.place = tokens → HasEnd tokens →
      chainAt all l left = .error (haltOf all stop)
  | .right takes right, _, left, hleft, hend => by
    have hop := Token.not_isEnd_of_takes takes
    exact chainAt_of_error (look_of_drop hleft) takes
      (right.parseAt_eq (drop_past hleft hop) (hend.tail hop))
  | .later takes right_reads more, _, left, hleft, hend => by
    have hop := Token.not_isEnd_of_takes takes
    have hafter := hend.tail hop
    obtain ⟨right, hright, -, hright_place⟩ := right_reads.parseAt_eq (drop_past hleft hop) hafter
    obtain ⟨whole, hwhole, -, hwhole_place⟩ := chainAt_of_ok (look_of_drop hleft) takes hright
    rw [hwhole]
    exact more.chainAt_eq whole (by rw [hwhole_place, hright_place])
      (hafter.passes right_reads.passes)

end

end Grammar

namespace Parser

open Grammar

/-- The place, from a given one on, where the next statement can start. -/
def skipAt (tokens : List Token) (place : Nat) : Except Halt Nat :=
  match _h : look tokens place with
  | .error halt => .error halt
  | .ok t =>
    if _ht : t.isEnd then .ok place
    else
      match look tokens (place - 1) with
      | .error halt => .error halt
      | .ok previous =>
        if previous.kind = .symbol .semicolon || t.kind.startsStatement then .ok place
        else skipAt tokens (past t place)
  termination_by tokens.length - place
  decreasing_by
    have := lt_length_of_look _h
    rw [past_of_not_isEnd _ht]
    omega

/-- Reads an expression up to the end of input, by position. -/
def parseIndexed (p : Parser) : Except Halt (Except SyntaxFault Expr × Parser) :=
  match parseAt p.tokens .equality p.position with
  | .error (.fault f place) => .ok (.error f, { p with position := place })
  | .error halt => .error halt
  | .ok found =>
    match look p.tokens found.place with
    | .error halt => .error halt
    | .ok t =>
      if t.isEnd then .ok (.ok found.expr, { p with position := past t found.place })
      else .ok (.error ⟨.expectedEnd, t⟩, { p with position := found.place })

/-- Moves on to where the next statement can start, by position. -/
def synchronizeIndexed (p : Parser) : Except Halt Parser :=
  match look p.tokens p.position with
  | .error halt => .error halt
  | .ok t =>
    match skipAt p.tokens (past t p.position) with
    | .error halt => .error halt
    | .ok place => .ok { p with position := place }

/-- What a call returns, and the parser after it. -/
def answer (p : Parser) : Call → Option (Except SyntaxFault Expr) × Parser
  | .parse => (some p.parse.1, p.parse.2)
  | .synchronize => (none, p.synchronize)

/-- What a call returns, and the parser after it, by position. -/
def answerIndexed (p : Parser) : Call → Except Halt (Option (Except SyntaxFault Expr) × Parser)
  | .parse => p.parseIndexed.map fun (r, after) => (some r, after)
  | .synchronize => p.synchronizeIndexed.map fun after => (none, after)

/-- What some calls return, and the parser after them. -/
def answers (p : Parser) : List Call → List (Option (Except SyntaxFault Expr)) × Parser
  | [] => ([], p)
  | c :: calls =>
    let (r, after) := p.answer c
    let (rs, last) := answers after calls
    (r :: rs, last)

/-- What some calls return, and the parser after them, by position. -/
def answersIndexed (p : Parser) :
    List Call → Except Halt (List (Option (Except SyntaxFault Expr)) × Parser)
  | [] => .ok ([], p)
  | c :: calls => do
    let (r, after) ← p.answerIndexed c
    let (rs, last) ← answersIndexed after calls
    .ok (r :: rs, last)

/-! ### A guarded parser stays in range -/

theorem Guarded.hasEnd_upcoming {p : Parser} (h : p.Guarded) : HasEnd p.upcoming := by
  obtain ⟨t, rest, ht, heq⟩ := h.upcoming_eq
  exact ⟨t, by simp [heq], ht⟩

theorem moveTo_of_drop {p : Parser} {rest : List Token} {place : Nat}
    (h : p.tokens.drop place = rest) (hne : rest ≠ []) :
    { p with position := place } = p.moveTo rest := by
  rw [moveTo, ← place_eq h hne]

theorem Guarded.parseIndexed_eq {p : Parser} (h : p.Guarded) : p.parseIndexed = .ok p.parse := by
  have hend := h.hasEnd_upcoming
  rcases p.parse_cases with ⟨e, rest, hr, ht, heq⟩ | ⟨e, rest, hr, ht, heq⟩ | ⟨stop, hs, heq⟩
  · obtain ⟨found, hfound, rfl, hplace⟩ := hr.parseAt_eq rfl hend
    obtain ⟨t, after, rfl⟩ := (hend.passes hr.passes).exists_cons
    have hisEnd : t.isEnd := ht t rfl
    rw [heq, parseIndexed]
    simp only [hfound, look_of_drop hplace, if_pos hisEnd, past]
    rw [moveTo_of_drop hplace (List.cons_ne_nil t after)]
  · obtain ⟨found, hfound, rfl, hplace⟩ := hr.parseAt_eq rfl hend
    obtain ⟨t, after, rfl⟩ := (hend.passes hr.passes).exists_cons
    have hisEnd : ¬t.isEnd := by simpa using ht
    rw [heq, p.fail_eq hr.passes.suffix, parseIndexed]
    simp only [hfound, look_of_drop hplace, if_neg hisEnd]
    rw [moveTo_of_drop hplace (List.cons_ne_nil t after)]
    rfl
  · rw [heq, p.fail_eq hs.passes.suffix, parseIndexed, hs.parseAt_eq rfl hend]
    rfl

section Skip

variable {all : List Token} {place : Nat} {t previous : Token} (hlook : look all place = .ok t)

include hlook

theorem skipAt_of_isEnd (ht : t.isEnd) : skipAt all place = .ok place := by
  rw [skipAt]
  split
  next h => simp [hlook] at h
  next h =>
    obtain rfl := Except.ok.inj (hlook.symm.trans h)
    exact dif_pos ht

theorem skipAt_of_not_isEnd (ht : ¬t.isEnd) (hprevious : look all (place - 1) = .ok previous) :
    skipAt all place =
      if previous.kind = .symbol .semicolon || t.kind.startsStatement then .ok place
      else skipAt all (place + 1) := by
  rw [skipAt]
  split
  next h => simp [hlook] at h
  next h =>
    obtain rfl := Except.ok.inj (hlook.symm.trans h)
    rw [dif_neg ht, hprevious, past_of_not_isEnd ht]

end Skip

/-- Skipping by position goes where the next statement can start. The previous token is the one
before the place, so it is there. -/
theorem skipAt_eq {all : List Token} (tokens : List Token) {previous : Token} {place : Nat}
    (h : all.drop place = previous :: tokens) (hend : HasEnd tokens) :
    ∃ found, skipAt all (place + 1) = .ok found ∧ all.drop found = boundary previous tokens := by
  induction tokens generalizing previous place with
  | nil =>
    obtain ⟨t, after, hcons⟩ := hend.exists_cons
    cases hcons
  | cons t after ih =>
    have hplace : all.drop (place + 1) = t :: after := by rw [← List.drop_drop, h]; rfl
    have hlook := look_of_drop hplace
    rw [boundary]
    by_cases ht : t.isEnd
    · exact ⟨place + 1, skipAt_of_isEnd hlook ht, by simp [ht, hplace]⟩
    · rw [skipAt_of_not_isEnd hlook ht (look_of_drop h)]
      by_cases hstop : previous.kind = .symbol .semicolon || t.kind.startsStatement
      · exact ⟨place + 1, if_pos hstop, by simp_all⟩
      · rw [if_neg hstop, if_neg (by simp_all)]
        exact ih hplace (hend.tail ht)

theorem Guarded.synchronizeIndexed_eq {p : Parser} (h : p.Guarded) :
    p.synchronizeIndexed = .ok p.synchronize := by
  have hend := h.hasEnd_upcoming
  obtain ⟨t, after, hup⟩ := hend.exists_cons
  have hdrop : p.tokens.drop p.position = t :: after := hup
  have hlook := look_of_drop hdrop
  rw [synchronizeIndexed, hlook]
  dsimp only
  by_cases ht : t.isEnd
  · rw [past, if_pos ht, skipAt_of_isEnd hlook ht,
      synchronize_of_isAtEnd (isAtEnd_of_upcoming hup ▸ ht)]
  · have hrest : HasEnd after := (hup ▸ hend).tail ht
    obtain ⟨found, hskip, hfound⟩ := skipAt_eq after hdrop hrest
    obtain ⟨u, behind, hcons⟩ := (hrest.passes (passes_boundary t after)).exists_cons
    rw [past_of_not_isEnd ht, hskip, synchronize_of_upcoming hup ht,
      ← moveTo_of_drop hfound (by simp [hcons])]

theorem Guarded.answerIndexed_eq {p : Parser} (h : p.Guarded) (c : Call) :
    p.answerIndexed c = .ok (p.answer c) := by
  cases c with
  | parse => rw [answerIndexed, h.parseIndexed_eq]; rfl
  | synchronize => rw [answerIndexed, h.synchronizeIndexed_eq]; rfl

theorem answer_snd (p : Parser) (c : Call) : (p.answer c).2 = p.call c := by
  cases c <;> rfl

theorem answers_cons (p : Parser) (c : Call) (calls : List Call) : p.answers (c :: calls) =
    ((p.answer c).1 :: ((p.call c).answers calls).1, ((p.call c).answers calls).2) := by
  rw [answers, ← answer_snd]

theorem answers_snd (p : Parser) (calls : List Call) :
    (p.answers calls).2 = p.afterCalls calls := by
  induction calls generalizing p with
  | nil => rfl
  | cons c calls ih =>
    rw [answers_cons, afterCalls, List.foldl_cons]
    exact ih _

/-- Whatever is called, no index is out of range and no node gets a wrong operator. -/
theorem Guarded.answersIndexed_eq {p : Parser} (h : p.Guarded) (calls : List Call) :
    p.answersIndexed calls = .ok (p.answers calls) := by
  induction calls generalizing p with
  | nil => rfl
  | cons c calls ih =>
    have hafter : (p.answer c).2.Guarded := by
      rw [answer_snd]
      exact h.call c
    rw [answersIndexed, h.answerIndexed_eq c]
    simp only [bind, Except.bind, ih hafter]
    rfl

end Parser

end LoxCalc
