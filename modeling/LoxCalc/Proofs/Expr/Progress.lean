import LoxCalc.Proofs.Expr.Indexed

/-!
# Progress and lookahead

Every function of the grammar moves forward over tokens that are no end of input, and looks at one
token behind those it takes: a tree stays the same whatever follows, if no operator comes that goes
on with it, and a fault stays the same as long as the token at fault does. No function can call
itself for ever, because a nested call has fewer tokens left, or the same tokens and a tighter rule.
Main statements: `Reads.exists_read` and `Stops.exists_read`, what a call depends on,
`Entry.body_eq_result`, what it calls, and `enter_progress`, both for a parser at a place.
-/

namespace LoxCalc

namespace Grammar

/-! ### What a call depends on -/

/-- A level has ended before some tokens according to the first of them alone. -/
theorem EndsLevel.of_head?_eq {l : Level} {rest rest' : List Token} (h : EndsLevel l rest)
    (hhead : rest'.head? = rest.head?) : EndsLevel l rest' := by
  unfold EndsLevel
  rw [hhead]
  exact h

theorem head?_append_eq {read rest rest' : List Token} (h : rest'.head? = rest.head?) :
    (read ++ rest').head? = (read ++ rest).head? := by
  rw [List.head?_append, List.head?_append, h]

/-- A tree that is read does not depend on what follows, as long as that does not go on with it. -/
theorem Reads.exists_read {l : Level} {tokens rest : List Token} {e : Expr}
    (h : Reads l tokens e rest) : ∃ read, tokens = read ++ rest ∧
      ∀ rest', EndsLevel l rest' → Reads l (read ++ rest') e rest' := by
  obtain ⟨⟨m, hm, hlayered⟩, read, hread, hspelled⟩ := h.layered
  refine ⟨read, hread, fun rest' hends => ?_⟩
  exact ((readsAlone_of_layered hlayered hspelled).1 rest' (hends.mono hm)).loosen hm hends

mutual

/-- Where and why a level has to stop does not depend on what follows the token at fault. -/
theorem Stops.exists_read {l tokens stop} : Stops l tokens stop →
    ∃ read, tokens = read ++ stop.rest ∧
      ∀ rest', rest'.head? = stop.rest.head? → Stops l (read ++ rest') ⟨stop.cause, rest'⟩
  | .first binary left => by
    obtain ⟨read, rfl, hleft⟩ := left.exists_read
    exact ⟨read, rfl, fun rest' hhead => .first binary (hleft rest' hhead)⟩
  | .chain binary left more => by
    obtain ⟨read, rfl, hleft⟩ := left.exists_read
    obtain ⟨read', rfl, hmore⟩ := more.exists_read
    refine ⟨read ++ read', by rw [List.append_assoc], fun rest' hhead => ?_⟩
    rw [List.append_assoc]
    exact .chain binary (hleft _ (left.endsLevel.of_head?_eq (head?_append_eq hhead)))
      (hmore rest' hhead)
  | .unary starts operand => by
    obtain ⟨read, rfl, hoperand⟩ := operand.exists_read
    exact ⟨_ :: read, rfl, fun rest' hhead => .unary starts (hoperand rest' hhead)⟩
  | .operand notUnary primary => by
    obtain ⟨read, rfl, hprimary⟩ := primary.exists_read
    refine ⟨read, rfl, fun rest' hhead => .operand ?_ (hprimary rest' hhead)⟩
    rwa [head?_append_eq hhead]
  | .inner opens inner => by
    obtain ⟨read, rfl, hinner⟩ := inner.exists_read
    exact ⟨_ :: read, rfl, fun rest' hhead => .inner opens (hinner rest' hhead)⟩
  | .unclosed opens inner open_end => by
    obtain ⟨read, rfl, hinner⟩ := inner.exists_read
    refine ⟨_ :: read, rfl, fun rest' hhead => ?_⟩
    exact .unclosed opens (hinner rest' (inner.endsLevel.of_head?_eq hhead)) (hhead ▸ open_end)
  | .nothing none_starts => ⟨[], rfl, fun _ hhead => .nothing (hhead ▸ none_starts)⟩

theorem ChainStops.exists_read {l tokens stop} : ChainStops l tokens stop →
    ∃ read, tokens = read ++ stop.rest ∧
      ∀ rest', rest'.head? = stop.rest.head? → ChainStops l (read ++ rest') ⟨stop.cause, rest'⟩
  | .right takes right => by
    obtain ⟨read, rfl, hright⟩ := right.exists_read
    exact ⟨_ :: read, rfl, fun rest' hhead => .right takes (hright rest' hhead)⟩
  | .later takes right more => by
    obtain ⟨read, rfl, hright⟩ := right.exists_read
    obtain ⟨read', rfl, hmore⟩ := more.exists_read
    refine ⟨_ :: (read ++ read'), by rw [List.cons_append, List.append_assoc], ?_⟩
    intro rest' hhead
    rw [List.cons_append, List.append_assoc]
    exact .later takes (hright _ (right.endsLevel.of_head?_eq (head?_append_eq hhead)))
      (hmore rest' hhead)

end

/-! ### Calls -/

/-- The functions that read an expression: one for a whole expression, and one for each level. -/
inductive Rule
  | expression
  | level (l : Level)
  deriving DecidableEq

namespace Rule

/-- The level that a function reads. -/
def reads : Rule → Level
  | expression => .equality
  | level l => l

/-- How many functions are tighter. -/
def looseness : Rule → Nat
  | expression => 6
  | level l => l.looseness

/-- Whether a token of some kind goes on with what a function has read: a binary operator of its
level or of a tighter one. -/
def Continues (r : Rule) (k : Token.Kind) : Prop :=
  ∃ l : Level, l.looseness ≤ r.reads.looseness ∧ l.takes k

theorem endsLevel_iff {r : Rule} {rest : List Token} :
    EndsLevel r.reads rest ↔ ∀ t ∈ rest.head?, ¬r.Continues t.kind := by
  simp [EndsLevel, Continues]

theorem looseness_le (r : Rule) : r.looseness ≤ 6 := by
  rcases r with _ | (_ | _ | _ | _ | _ | _) <;> decide

end Rule

/-- A call of a function. The tokens left say where it starts. -/
structure Entry where
  rule : Rule
  tokens : List Token

namespace Entry

/-- What a call returns. -/
def result : (x : Entry) → Except Stop (Parsed x.tokens)
  | ⟨.expression, tokens⟩ => Grammar.expression tokens
  | ⟨.level l, tokens⟩ => parse l tokens

theorem result_eq (r : Rule) (tokens : List Token) : result ⟨r, tokens⟩ = parse r.reads tokens := by
  cases r <;> rfl

/-- A call starts where another one does and is tighter, or starts further on. -/
def Below (y x : Entry) : Prop :=
  (y.tokens = x.tokens ∧ y.rule.looseness < x.rule.looseness) ∨
    (y.tokens <:+ x.tokens ∧ y.tokens.length < x.tokens.length)

/-- Calls with fewer tokens left are smaller, and of those with as many left the tighter ones. -/
def size (x : Entry) : Nat := 7 * x.tokens.length + x.rule.looseness

theorem Below.size_lt {y x : Entry} (h : y.Below x) : y.size < x.size := by
  have hle := y.rule.looseness_le
  unfold size
  obtain ⟨htokens, hlt⟩ | ⟨-, hlt⟩ := h
  · rw [htokens]
    omega
  · omega

theorem wellFounded_below : WellFounded Below :=
  Subrelation.wf Below.size_lt (measure size).wf

theorem below_of_suffix {r r' : Rule} {t : Token} {tokens after : List Token}
    (h : t :: after <:+ tokens) : Below ⟨r', after⟩ ⟨r, tokens⟩ := by
  have hlen := h.length_le
  rw [List.length_cons] at hlen
  exact .inr ⟨(List.suffix_cons t after).trans h, hlen⟩

/-! ### What a call calls -/

theorem behind_length_lt {after behind : List Token} {close : Token} {inner : Parsed after}
    (t : Token) (h : inner.rest = close :: behind) : behind.length < (t :: after).length := by
  have hlt := inner.shorter
  rw [h, List.length_cons] at hlt
  rw [List.length_cons]
  omega

section Body

/- Answers nested calls, as far as it can. -/
variable (ask : (y : Entry) → Option (Except Stop (Parsed y.tokens)))

/-- `chain` with its nested calls answered by `ask`. -/
def chainBody (l : Level) {tokens : List Token} (left : Parsed tokens) :
    Option (Except Stop (Parsed tokens)) :=
  match h : left.rest with
  | [] => some (.ok left)
  | op :: after =>
    if l.takes op.kind then
      match ask ⟨.level l.tighter, after⟩ with
      | none => none
      | some (.error stop) => some (.error stop)
      | some (.ok right) =>
        chainBody l ⟨.binary left.expr op right.expr, right.rest, rest_length_lt h right⟩
    else some (.ok left)
  termination_by left.rest.length
  decreasing_by
    rw [h, List.length_cons]
    exact right.shorter.trans (Nat.lt_succ_self _)

/-- `unary` with its nested calls answered by `ask`. -/
def unaryBody : (tokens : List Token) → Option (Except Stop (Parsed tokens))
  | [] => ask ⟨.level .primary, []⟩
  | op :: after =>
    if Level.startsUnary op.kind then
      match ask ⟨.level .unary, after⟩ with
      | none => none
      | some (.error stop) => some (.error stop)
      | some (.ok operand) => some (.ok ⟨.unary op operand.expr, operand.rest,
          operand.shorter.trans (Nat.lt_succ_self _)⟩)
    else ask ⟨.level .primary, op :: after⟩

/-- `primary` with its nested call answered by `ask`. -/
def primaryBody : (tokens : List Token) → Option (Except Stop (Parsed tokens))
  | [] => some (.error ⟨.expectedExpression, []⟩)
  | t :: after =>
    if t.kind = .symbol .leftParen then
      match ask ⟨.expression, after⟩ with
      | none => none
      | some (.error stop) => some (.error stop)
      | some (.ok inner) =>
        match h : inner.rest with
        | [] => some (.error ⟨.expectedRightParen, []⟩)
        | close :: behind =>
          if close.kind = .symbol .rightParen then
            some (.ok ⟨.grouping inner.expr, behind, behind_length_lt t h⟩)
          else some (.error ⟨.expectedRightParen, close :: behind⟩)
    else
      match Value.ofToken? t.data with
      | some value => some (.ok ⟨.literal value, after, Nat.lt_succ_self _⟩)
      | none => some (.error ⟨.expectedExpression, t :: after⟩)

/-- What a call does, with its nested calls answered by `ask`. There is no result if one of them is
not answered. -/
def body : (x : Entry) → Option (Except Stop (Parsed x.tokens))
  | ⟨.expression, tokens⟩ => ask ⟨.level .equality, tokens⟩
  | ⟨.level .primary, tokens⟩ => primaryBody ask tokens
  | ⟨.level .unary, tokens⟩ => unaryBody ask tokens
  | ⟨.level l, tokens⟩ =>
    match ask ⟨.level l.tighter, tokens⟩ with
    | none => none
    | some (.error stop) => some (.error stop)
    | some (.ok first) => chainBody ask l first

end Body

section

variable {ask : (y : Entry) → Option (Except Stop (Parsed y.tokens))} {r : Rule} {l : Level}
  {tokens : List Token} (hask : ∀ y : Entry, y.Below ⟨r, tokens⟩ → ask y = some y.result)

include hask

theorem ask_of_suffix {t : Token} {after : List Token} (h : t :: after <:+ tokens) (r' : Rule) :
    ask ⟨r', after⟩ = some (parse r'.reads after) := by
  rw [hask _ (below_of_suffix h), result_eq]

theorem ask_of_lt (h : l.looseness < r.looseness) :
    ask ⟨.level l, tokens⟩ = some (parse l tokens) :=
  hask ⟨.level l, tokens⟩ (.inl ⟨rfl, h⟩)

theorem chainBody_eq {left : Parsed tokens} (hrest : left.rest <:+ tokens) :
    chainBody ask l left = some (chain l left) := by
  fun_induction chainBody ask l left with
  | case1 left hnil => rw [chain_of_not_takes (by simp [hnil])]
  | case2 left op after hcons ht hnone =>
    rw [ask_of_suffix hask (hcons ▸ hrest)] at hnone
    cases hnone
  | case3 left op after hcons ht stop herror =>
    rw [ask_of_suffix hask (hcons ▸ hrest)] at herror
    rw [chain_of_error hcons ht (Option.some.inj herror)]
  | case4 left op after hcons ht right hok ih =>
    rw [ask_of_suffix hask (hcons ▸ hrest)] at hok
    have hright := Option.some.inj hok
    have hsuffix := (reads_of_parse hright).passes.suffix
    rw [ih ((hsuffix.trans (List.suffix_cons op after)).trans (hcons ▸ hrest)),
      chain_of_ok hcons ht hright]
  | case5 left op after hcons ht => rw [chain_of_not_takes (by simpa [hcons] using ht)]

theorem unaryBody_eq (hr : 0 < r.looseness) : unaryBody ask tokens = some (unary tokens) := by
  have hprimary : ask ⟨.level .primary, tokens⟩ = some (primary tokens) := by
    rw [ask_of_lt (l := .primary) hask hr, parse_primary]
  cases tokens with
  | nil => rwa [unaryBody, unary]
  | cons op after =>
    rw [unaryBody, unary]
    by_cases hop : Level.startsUnary op.kind
    · rw [if_pos hop, if_pos hop, ask_of_suffix hask List.suffix_rfl, Rule.reads, parse_unary]
      cases unary after <;> rfl
    · rw [if_neg hop, if_neg hop, hprimary]

theorem primaryBody_eq : primaryBody ask tokens = some (primary tokens) := by
  cases tokens with
  | nil => rw [primaryBody, primary]
  | cons t after =>
    rw [primaryBody, primary]
    by_cases hopens : t.kind = .symbol .leftParen
    · rw [if_pos hopens, if_pos hopens, ask_of_suffix hask List.suffix_rfl, Rule.reads]
      rcases parse .equality after with stop | ⟨e, _ | ⟨close, behind⟩, hlt⟩
      · rfl
      · rfl
      · by_cases hcloses : close.kind = .symbol .rightParen
        · simp [hcloses]
        · simp [hcloses]
    · rw [if_neg hopens, if_neg hopens]
      cases Value.ofToken? t.data <;> rfl

end

theorem body_of_binary (ask : (y : Entry) → Option (Except Stop (Parsed y.tokens))) {l : Level}
    (hl : 1 < l.looseness) (tokens : List Token) : body ask ⟨.level l, tokens⟩ =
      match ask ⟨.level l.tighter, tokens⟩ with
      | none => none
      | some (.error stop) => some (.error stop)
      | some (.ok first) => chainBody ask l first := by
  cases l with
  | unary | primary => simp [Level.looseness] at hl
  | _ => rfl

/-- A call needs the results of calls below it only. -/
theorem body_eq_result (x : Entry) (ask : (y : Entry) → Option (Except Stop (Parsed y.tokens)))
    (hask : ∀ y : Entry, y.Below x → ask y = some y.result) : x.body ask = some x.result := by
  rcases x with ⟨_ | l, tokens⟩
  · exact ask_of_lt hask (by decide)
  by_cases hl : 1 < l.looseness
  · have htighter := Level.looseness_tighter_add_one (Nat.zero_lt_of_lt hl)
    rw [body_of_binary ask hl, ask_of_lt hask (by rw [Rule.looseness]; omega), result]
    cases hfirst : parse l.tighter tokens with
    | error stop => rw [parse_of_error hl hfirst]
    | ok first =>
      rw [parse_of_ok hl hfirst]
      exact chainBody_eq hask (reads_of_parse hfirst).passes.suffix
  · obtain rfl | rfl : l = .unary ∨ l = .primary := by
      cases l <;> simp_all [Level.looseness]
    · rw [body, unaryBody_eq hask (by decide), result, parse_unary]
    · rw [body, primaryBody_eq hask, result, parse_primary]

/-- Only a primary expression that opens no parenthesis needs no result of another call. -/
theorem isSome_body_iff (x : Entry) : (x.body fun _ => none).isSome ↔
    x.rule = .level .primary ∧ ∀ t ∈ x.tokens.head?, t.kind ≠ .symbol .leftParen := by
  rcases x with ⟨_ | l, tokens⟩
  · simp [body]
  cases l with
  | primary =>
    cases tokens with
    | nil => simp [body, primaryBody]
    | cons t after =>
      by_cases hopens : t.kind = .symbol .leftParen
      · simp [body, primaryBody, hopens]
      · cases hvalue : Value.ofToken? t.data <;> simp [body, primaryBody, hopens, hvalue]
  | unary => cases tokens <;> simp [body, unaryBody]
  | _ => simp [body]

end Entry

end Grammar

namespace Parser

open Grammar Token

/-! ### Calls of a parser -/

/-- What a function of the grammar returns to a parser, and the parser after it. -/
def enter (p : Parser) (r : Rule) : Except SyntaxFault Expr × Parser :=
  match (Entry.mk r p.upcoming).result with
  | .error stop => p.fail stop
  | .ok found => (.ok found.expr, p.moveTo found.rest)

/-- To parse is to read an expression and to look for the end behind it. -/
theorem parse_eq_enter (p : Parser) : p.parse =
    match p.enter .expression with
    | (.error fault, q) => (.error fault, q)
    | (.ok e, q) => if q.isAtEnd then (.ok e, q) else (.error ⟨.expectedEnd, q.current⟩, q) := by
  rw [parse, enter, Entry.result]
  cases expression p.upcoming <;> rfl

section Enter

variable {p : Parser} {r : Rule} {rest : List Token}

theorem enter_of_reads {e : Expr} (h : Reads r.reads p.upcoming e rest) :
    p.enter r = (.ok e, p.moveTo rest) := by
  obtain ⟨found, hfound, rfl, rfl⟩ := h.parse_eq
  rw [enter, Entry.result_eq, hfound]

theorem enter_of_stops {stop : Stop} (h : Stops r.reads p.upcoming stop) :
    p.enter r = (.error ⟨stop.cause, stop.rest.headD (.endOn 1)⟩, p.moveTo stop.rest) := by
  rw [enter, Entry.result_eq, h.parse_eq]
  exact p.fail_eq h.passes.suffix

/-- What a call does, by the rules of the grammar. -/
theorem enter_cases (p : Parser) (r : Rule) :
    (∃ e rest, Reads r.reads p.upcoming e rest ∧ p.enter r = (.ok e, p.moveTo rest)) ∨
    ∃ stop, Stops r.reads p.upcoming stop ∧
      p.enter r = (.error ⟨stop.cause, stop.rest.headD (.endOn 1)⟩, p.moveTo stop.rest) := by
  cases hparse : Grammar.parse r.reads p.upcoming with
  | ok found => exact .inl ⟨_, _, reads_of_parse hparse, enter_of_reads (reads_of_parse hparse)⟩
  | error stop => exact .inr ⟨stop, stops_of_parse hparse, enter_of_stops (stops_of_parse hparse)⟩

end Enter

/-! ### Other tokens behind -/

/-- A list that agrees with another one up to a place has what the other one has read there. -/
theorem drop_eq_append_of_take_eq {α : Type} {all other read rest : List α} {i : Nat}
    (h : all.drop i = read ++ rest)
    (htake : other.take (i + read.length) = all.take (i + read.length)) :
    other.drop i = read ++ other.drop (i + read.length) := by
  have hread : (other.drop i).take read.length = read := by
    rw [List.take_drop, htake, ← List.take_drop, h, List.take_left]
  calc other.drop i = (other.drop i).take read.length ++ (other.drop i).drop read.length :=
        (List.take_append_drop _ _).symm
    _ = read ++ other.drop (i + read.length) := by rw [hread, List.drop_drop]

theorem getElem?_position_moveTo (p : Parser) {rest : List Token} (h : rest <:+ p.upcoming) :
    p.tokens[(p.moveTo rest).position]? = rest.head? := by
  rw [← List.head?_drop]
  exact congrArg List.head? (upcoming_moveTo p h)

theorem moveTo_drop {p : Parser} {place : Nat} {t : Token} (h : p.tokens[place]? = some t) :
    p.moveTo (p.tokens.drop place) = { p with position := place } := by
  refine (moveTo_of_drop rfl fun hnil => ?_).symm
  rw [← List.head?_drop, hnil] at h
  cases h

section OtherTokens

variable {p : Parser} {r : Rule} {other : List Token}

/-- A call that has read a tree reads the same one from any list that agrees with the tokens up to
the place where it ended, if the token there does not go on with it. -/
theorem enter_of_take_eq_of_reads (hp : p.position ≤ p.tokens.length) {e : Expr} {rest : List Token}
    (h : Reads r.reads p.upcoming e rest) {t : Token}
    (htake : other.take (p.moveTo rest).position = p.tokens.take (p.moveTo rest).position)
    (hget : other[(p.moveTo rest).position]? = some t) (ht : ¬r.Continues t.kind) :
    enter ⟨other, p.position⟩ r = (.ok e, ⟨other, (p.moveTo rest).position⟩) := by
  obtain ⟨read, hread, hother⟩ := h.exists_read
  rw [position_moveTo hread hp] at htake hget ⊢
  have hreads := hother (other.drop (p.position + read.length))
    (Rule.endsLevel_iff.2 (by simpa [hget] using ht))
  rw [← drop_eq_append_of_take_eq hread htake] at hreads
  rw [enter_of_reads (p := ⟨other, p.position⟩) hreads, moveTo_drop hget]

/-- A call that had to stop does so with any list that agrees with the tokens up to and including
the token at fault. -/
theorem enter_of_take_eq_of_stops (hp : p.position ≤ p.tokens.length) {cause : Cause} {t : Token}
    {after : List Token} (h : Stops r.reads p.upcoming ⟨cause, t :: after⟩)
    (htake : other.take ((p.moveTo (t :: after)).position + 1) =
      p.tokens.take ((p.moveTo (t :: after)).position + 1)) :
    enter ⟨other, p.position⟩ r =
      (.error ⟨cause, t⟩, ⟨other, (p.moveTo (t :: after)).position⟩) := by
  have hget := getElem?_position_moveTo p h.passes.suffix
  obtain ⟨read, hread, hother⟩ := h.exists_read
  rw [position_moveTo hread hp] at htake hget ⊢
  have hbefore := congrArg (List.take (p.position + read.length)) htake
  rw [List.take_take, List.take_take, Nat.min_eq_left (Nat.le_succ _)] at hbefore
  have hother_get : other[p.position + read.length]? = some t := by
    have := congrArg (·[p.position + read.length]?) htake
    simpa [hget] using this
  have hhead : (other.drop (p.position + read.length)).head? = some t := by
    rw [List.head?_drop, hother_get]
  have hstops := hother (other.drop (p.position + read.length)) hhead
  rw [← drop_eq_append_of_take_eq hread hbefore] at hstops
  rw [enter_of_stops (p := ⟨other, p.position⟩) hstops, List.headD_eq_head?_getD, hhead,
    moveTo_drop hother_get]
  rfl

end OtherTokens

/-! ### Progress -/

theorem position_lt_moveTo_of_reads {p : Parser} (hp : p.position ≤ p.tokens.length) {l : Level}
    {e : Expr} {rest : List Token} (h : Reads l p.upcoming e rest) :
    p.position < (p.moveTo rest).position := by
  obtain ⟨read, hread, -⟩ := h.exists_read
  obtain ⟨found, -, -, hrest⟩ := h.parse_eq
  have hshorter := found.shorter
  rw [hrest, hread, List.length_append] at hshorter
  rw [position_moveTo hread hp]
  omega

/-- A function of the grammar, called by a parser at or before the first end of input, leaves it
there and does not move it back. With a tree the parser has moved on, and any tokens that are the
same up to the new place give that tree, if the token there is no operator that goes on with it.
With a fault the parser stands at the token at fault, and any tokens that are the same up to and
including that one give that fault. The recursion ends: a call needs the results of other calls,
unless it is for a primary expression without a parenthesis, but only of calls that start where it
does and are tighter, or start further on. -/
theorem enter_progress {p : Parser} (h : p.Guarded) (r : Rule) :
    let q := (p.enter r).2
    q.tokens = p.tokens ∧ p.position ≤ q.position ∧ q.position ≤ (beforeEnd p.tokens).length ∧
    (∀ e, (p.enter r).1 = .ok e → p.position < q.position ∧
      ∀ other t, other.take q.position = p.tokens.take q.position →
        other[q.position]? = some t → ¬r.Continues t.kind →
          enter ⟨other, p.position⟩ r = (.ok e, ⟨other, q.position⟩)) ∧
    (∀ fault, (p.enter r).1 = .error fault → p.tokens[q.position]? = some fault.token ∧
      ∀ other, other.take (q.position + 1) = p.tokens.take (q.position + 1) →
        enter ⟨other, p.position⟩ r = (.error fault, ⟨other, q.position⟩)) ∧
    WellFounded Entry.Below ∧
    ∀ x : Entry,
      ((x.body fun _ => none).isSome ↔
        x.rule = .level .primary ∧ ∀ t ∈ x.tokens.head?, t.kind ≠ .symbol .leftParen) ∧
      ∀ ask : (y : Entry) → Option (Except Stop (Parsed y.tokens)),
        (∀ y : Entry, y.Below x → ask y = some y.result) → x.body ask = some x.result := by
  have hp := h.position_le_length
  have hcalls := fun x : Entry => And.intro x.isSome_body_iff x.body_eq_result
  rcases p.enter_cases r with ⟨e, rest, hreads, heq⟩ | ⟨stop, hstops, heq⟩
  · have hpass := hreads.passes
    rw [heq]
    refine ⟨rfl, position_le_moveTo hpass hp, (h.moveTo hpass).position_le, ?_,
      fun fault hfault => by simp at hfault, Entry.wellFounded_below, hcalls⟩
    rintro _ ⟨⟩
    exact ⟨position_lt_moveTo_of_reads hp hreads,
      fun other t => enter_of_take_eq_of_reads hp hreads⟩
  · obtain ⟨cause, rest⟩ := stop
    have hpass := hstops.passes
    obtain ⟨t, after, rfl⟩ := List.exists_cons_of_ne_nil (h.ne_nil_of_passes hpass)
    rw [heq]
    refine ⟨rfl, position_le_moveTo hpass hp, (h.moveTo hpass).position_le,
      fun e he => by simp at he, ?_, Entry.wellFounded_below, hcalls⟩
    rintro _ ⟨⟩
    exact ⟨getElem?_position_moveTo p hpass.suffix,
      fun other => enter_of_take_eq_of_stops hp hstops⟩

/-- A factor ends before a plus, whatever stands behind that. -/
theorem enter_progress_factor :
    let tokens : List Token := [Counter.nilToken, ⟨.symbol .plus, "+", 1⟩, Counter.rightParenToken]
    (ofTokens [Counter.nilToken]).Guarded ∧
      enter ⟨tokens, 0⟩ (.level .factor) = (.ok (.literal .nil), ⟨tokens, 1⟩) := by
  intro tokens
  have hguarded := guarded_ofTokens [Counter.nilToken]
  have hreads : Reads .factor (ofTokens [Counter.nilToken]).upcoming (.literal .nil) [.endOn 1] :=
    .chain (by decide) (.operand (.literal rfl)) (.done (by decide))
  have hplus : ¬(Rule.level .factor).Continues (.symbol .plus) := by
    rintro ⟨l, hle, htakes⟩
    obtain rfl : l = .term := Level.takes_unique htakes rfl
    exact absurd hle (by decide)
  obtain ⟨-, -, -, hok, -⟩ := enter_progress hguarded (.level .factor)
  rw [enter_of_reads (r := .level .factor) hreads] at hok
  exact ⟨hguarded, (hok _ rfl).2 tokens _ rfl rfl hplus⟩

end Parser

end LoxCalc
