import LoxCalc.Proofs.Expr.Layers

/-!
# Counting parentheses

Whether tokens are an expression does not depend on how tightly operators bind. It is enough to know
whether an operand has to come next, and how many parentheses are open. `Counter` keeps just that.
Main statement: `parse_eq_count`, a parser accepts what the counter accepts and stops where the
counter stops, for the same cause, which is the first place at which nothing can help any more.
-/

namespace LoxCalc

open Grammar (Stop Cause)

/-- What has to come next: an operand, or something behind a complete one. -/
inductive Counter.Mode
  | operand
  | done
  deriving DecidableEq

/-- What has to come next, and the number of open parentheses. -/
structure Counter where
  mode : Counter.Mode
  depth : Nat
  deriving DecidableEq

namespace Counter

/-- What becomes of a counter at a token. -/
inductive Outcome
  | go (c : Counter)
  | accept
  | refuse (cause : Cause)

/-- Looks at the kind of one token. -/
def step (c : Counter) (k : Token.Kind) : Outcome :=
  match c.mode with
  | .operand =>
    if k.isLiteral then .go ⟨.done, c.depth⟩
    else if k = .symbol .leftParen then .go ⟨.operand, c.depth + 1⟩
    else if k.isUnaryOperator then .go ⟨.operand, c.depth⟩
    else .refuse .expectedExpression
  | .done =>
    if k.isBinaryOperator then .go ⟨.operand, c.depth⟩
    else if k = .symbol .rightParen ∧ 0 < c.depth then .go ⟨.done, c.depth - 1⟩
    else if k = .endOfInput ∧ c.depth = 0 then .accept
    else .refuse (if 0 < c.depth then .expectedRightParen else .expectedEnd)

/-- Looks at token after token. The result is what is left at the end that was accepted, or where
and why the counter had to stop. Behind the last token stands an end of input. -/
def run (c : Counter) : List Token → Except Stop (List Token)
  | [] =>
    match c.step .endOfInput with
    | .refuse cause => .error ⟨cause, []⟩
    | _ => .ok []
  | t :: rest =>
    match c.step t.kind with
    | .go c => run c rest
    | .accept => .ok (t :: rest)
    | .refuse cause => .error ⟨cause, t :: rest⟩

/-- The counter before the first token. -/
def start : Counter := ⟨.operand, 0⟩

/-! ### Steps -/

section Steps

variable {d : Nat} {k : Token.Kind}

theorem step_literal (h : k.isLiteral) : step ⟨.operand, d⟩ k = .go ⟨.done, d⟩ := by
  simp [step, h]

theorem step_leftParen : step ⟨.operand, d⟩ (.symbol .leftParen) = .go ⟨.operand, d + 1⟩ := rfl

theorem step_unary (h : k.isUnaryOperator) : step ⟨.operand, d⟩ k = .go ⟨.operand, d⟩ := by
  have hl : ¬k.isLiteral := fun hl => (Token.Kind.of_isLiteral hl).2 h
  have hp : k ≠ .symbol .leftParen := by
    rintro rfl
    simp [Token.Kind.isUnaryOperator] at h
  simp [step, hl, hp, h]

theorem step_nothing (hl : ¬k.isLiteral) (hp : k ≠ .symbol .leftParen) (hu : ¬k.isUnaryOperator) :
    step ⟨.operand, d⟩ k = .refuse .expectedExpression := by
  simp [step, hl, hp, hu]

theorem step_binary (h : k.isBinaryOperator) : step ⟨.done, d⟩ k = .go ⟨.operand, d⟩ := by
  simp [step, h]

theorem step_rightParen : step ⟨.done, d + 1⟩ (.symbol .rightParen) = .go ⟨.done, d⟩ := by
  simp [step, Token.Kind.isBinaryOperator]

theorem step_unclosed (hb : ¬k.isBinaryOperator) (hr : k ≠ .symbol .rightParen) :
    step ⟨.done, d + 1⟩ k = .refuse .expectedRightParen := by
  simp [step, hb, hr]

theorem step_end : step ⟨.done, 0⟩ .endOfInput = .accept := rfl

theorem step_trailing (hb : ¬k.isBinaryOperator) (he : k ≠ .endOfInput) :
    step ⟨.done, 0⟩ k = .refuse .expectedEnd := by
  simp [step, hb, he]

end Steps

/-! ### Runs -/

section Runs

variable {c c' : Counter} {t : Token} {rest : List Token} {cause : Cause}

theorem run_go (h : c.step t.kind = .go c') : c.run (t :: rest) = c'.run rest := by
  rw [run, h]

theorem run_leftParen (h : t.kind = .symbol .leftParen) (d : Nat) :
    run ⟨.operand, d⟩ (t :: rest) = run ⟨.operand, d + 1⟩ rest :=
  run_go (by rw [h, step_leftParen])

theorem run_rightParen (h : t.kind = .symbol .rightParen) (d : Nat) :
    run ⟨.done, d + 1⟩ (t :: rest) = run ⟨.done, d⟩ rest :=
  run_go (by rw [h, step_rightParen])

theorem run_binary (h : t.kind.isBinaryOperator) (d : Nat) :
    run ⟨.done, d⟩ (t :: rest) = run ⟨.operand, d⟩ rest :=
  run_go (step_binary h)

/-- A counter stops in front of what it refuses. -/
theorem run_refuse (hnil : c.step .endOfInput = .refuse cause ∨ rest ≠ [])
    (h : ∀ t ∈ rest.head?, c.step t.kind = .refuse cause) : c.run rest = .error ⟨cause, rest⟩ := by
  cases rest with
  | nil => simp [run, hnil.resolve_right (by simp)]
  | cons t rest => rw [run, h t rfl]

/-- A counter that accepts an end of input leaves it. -/
theorem run_accept (hnil : c.step .endOfInput = .accept) (h : ∀ t ∈ rest.head?, t.isEnd) :
    c.run rest = .ok rest := by
  cases rest with
  | nil => simp [run, hnil]
  | cons t rest => rw [run, Token.isEnd_iff.1 (h t rfl), hnil]

/-- The counter behind some tokens, unless it stops before. -/
def after (c : Counter) : List Token → Option Counter
  | [] => some c
  | t :: rest =>
    match c.step t.kind with
    | .go c => after c rest
    | _ => none

theorem run_append {read : List Token} (h : c.after read = some c') :
    c.run (read ++ rest) = c'.run rest := by
  induction read generalizing c with
  | nil =>
    obtain rfl := Option.some.inj h
    rfl
  | cons t read ih =>
    rw [after] at h
    split at h
    next next hstep =>
      rw [List.cons_append, run_go hstep]
      exact ih h
    next => simp at h

/-- A counter that stops has gone through the tokens before, and stops there whatever follows. -/
theorem exists_after_of_run_error {tokens : List Token}
    (h : c.run tokens = .error ⟨cause, t :: rest⟩) :
    ∃ read c', tokens = read ++ t :: rest ∧ c.after read = some c' ∧
      c'.step t.kind = .refuse cause := by
  induction tokens generalizing c with
  | nil =>
    rw [run] at h
    split at h <;> simp at h
  | cons u tokens ih =>
    rw [run] at h
    split at h
    next next hstep =>
      obtain ⟨read, c', rfl, hafter, hrefuse⟩ := ih h
      exact ⟨u :: read, c', rfl, by rw [after, hstep]; exact hafter, hrefuse⟩
    next => simp at h
    next found hstep =>
      obtain ⟨rfl, rfl, rfl⟩ := by simpa using h
      exact ⟨[], c, rfl, rfl, hstep⟩

end Runs

/-! ### Completing an expression -/

/-- The literal nil, which can stand for any operand. -/
def nilToken : Token := ⟨.keyword .nilWord, Keyword.nilWord.text, 1⟩

/-- A closing parenthesis. -/
def rightParenToken : Token := ⟨.symbol .rightParen, ")", 1⟩

/-- Tokens that make a whole expression of what a counter has seen: an operand if one has to come,
and a parenthesis for every open one. -/
def completion (c : Counter) : List Token :=
  match c.mode with
  | .operand => nilToken :: List.replicate c.depth rightParenToken
  | .done => List.replicate c.depth rightParenToken

theorem run_replicate (d : Nat) : run ⟨.done, d⟩ (List.replicate d rightParenToken) = .ok [] := by
  induction d with
  | zero => rfl
  | succ d ih =>
    rw [List.replicate_succ, run_go step_rightParen]
    exact ih

theorem run_completion (c : Counter) : c.run c.completion = .ok [] := by
  rcases c with ⟨_ | _, d⟩
  · exact (run_go (step_literal rfl)).trans (run_replicate d)
  · exact run_replicate d

/-- An end of input behind the last token changes nothing. -/
theorem run_append_end {e : Token} (he : e.isEnd) (c : Counter) (tokens : List Token) :
    (∃ rest, c.run (tokens ++ [e]) = .ok rest) ↔ ∃ rest, c.run tokens = .ok rest := by
  induction tokens generalizing c with
  | nil =>
    -- no counter goes on at an end of input, so both sides come to the same
    rw [List.nil_append, run, run, Token.isEnd_iff.1 he]
    rcases c with ⟨_ | _, _ | d⟩ <;> simp [step, Token.Kind.isLiteral,
      Token.Kind.isUnaryOperator, Token.Kind.isBinaryOperator]
  | cons t tokens ih =>
    rw [List.cons_append, run, run]
    cases c.step t.kind with
    | go c => exact ih c
    | accept => simp
    | refuse cause => simp

end Counter

/-! ### The counter follows the grammar -/

theorem Token.Kind.isBinaryOperator_iff {k : Token.Kind} :
    k.isBinaryOperator ↔ ∃ l : Level, l.takes k := by
  constructor
  · intro h
    unfold isBinaryOperator at h
    split at h
    case h_1 | h_2 => exact ⟨.equality, rfl⟩
    case h_3 | h_4 | h_5 | h_6 => exact ⟨.comparison, rfl⟩
    case h_7 | h_8 => exact ⟨.term, rfl⟩
    case h_9 | h_10 => exact ⟨.factor, rfl⟩
    case h_11 => simp at h
  · rintro ⟨l, h⟩
    unfold Level.takes at h
    split at h <;> simp_all [isBinaryOperator]

namespace Grammar

theorem endsLevel_of_looseness_le {l : Level} (h : l.looseness ≤ 1) (rest : List Token) :
    EndsLevel l rest := by
  intro t _ m hm htakes
  have := Level.one_lt_looseness_of_takes htakes
  omega

mutual

/-- What is read goes on as long as an operator of its level or of a tighter one follows. -/
theorem Reads.endsLevel {l tokens e rest} : Reads l tokens e rest → EndsLevel l rest
  | .chain _ left more => more.endsLevel left.endsLevel
  | .unary _ _ => endsLevel_of_looseness_le (by decide) _
  | .operand _ => endsLevel_of_looseness_le (by decide) _
  | .literal _ => endsLevel_of_looseness_le (by decide) _
  | .grouping _ _ _ => endsLevel_of_looseness_le (by decide) _

theorem Chains.endsLevel {l e tokens e' rest} : Chains l e tokens e' rest →
    EndsLevel l.tighter tokens → EndsLevel l rest
  | .done ends, h => by
    intro t ht m hm htakes
    have hl : 1 < m.looseness := Level.one_lt_looseness_of_takes htakes
    have htighter := Level.looseness_tighter_add_one (l := l) (by omega)
    by_cases heq : m.looseness = l.looseness
    · exact ends t ht (Level.looseness_injective heq ▸ htakes)
    · exact h t ht m (by omega) htakes
  | .more _ right more, _ => more.endsLevel right.endsLevel

end

/-- Behind a whole expression stands no binary operator. -/
theorem Reads.not_isBinaryOperator {tokens e rest} (h : Reads .equality tokens e rest) :
    ∀ t ∈ rest.head?, ¬t.kind.isBinaryOperator := by
  intro t ht hb
  obtain ⟨l, hl⟩ := Token.Kind.isBinaryOperator_iff.1 hb
  exact h.endsLevel t ht l (Level.looseness_le_equality l) hl

open Counter

mutual

/-- A tree takes a counter from wanting an operand to having one, at the same depth. -/
theorem Reads.run_eq {l tokens e rest} : Reads l tokens e rest →
    ∀ d, run ⟨.operand, d⟩ tokens = run ⟨.done, d⟩ rest
  | .chain _ left more, d => (left.run_eq d).trans (more.run_eq d)
  | .unary starts operand, d =>
    (run_go (step_unary (Token.Kind.isUnaryOperator_iff.2 starts))).trans (operand.run_eq d)
  | .operand primary, d => primary.run_eq d
  | .literal value_eq, d => run_go (step_literal (Value.isLiteral_of_ofToken? value_eq))
  | .grouping opens inner closes, d => by
    rw [run_leftParen opens, inner.run_eq (d + 1)]
    exact run_rightParen closes d

theorem Chains.run_eq {l e tokens e' rest} : Chains l e tokens e' rest →
    ∀ d, run ⟨.done, d⟩ tokens = run ⟨.done, d⟩ rest
  | .done _, _ => rfl
  | .more takes right more, d => by
    rw [run_binary (Token.Kind.isBinaryOperator_iff.2 ⟨_, takes⟩), right.run_eq d]
    exact more.run_eq d

end

mutual

/-- A counter that wants an operand stops where a level does. Only a primary expression by itself
has to stop at a unary operator, which it cannot start with. -/
theorem Stops.run_eq {l tokens stop} : Stops l tokens stop →
    (0 < l.looseness ∨ ∀ t ∈ tokens.head?, ¬Level.startsUnary t.kind) →
      ∀ d, run ⟨.operand, d⟩ tokens = .error stop
  | .first binary left, _, d =>
    left.run_eq (.inl (Level.zero_lt_looseness_tighter binary)) d
  | .chain _ left more, _, d => (left.run_eq d).trans (more.run_eq d)
  | .unary starts operand, _, d =>
    (run_go (step_unary (Token.Kind.isUnaryOperator_iff.2 starts))).trans
      (operand.run_eq (.inl (by decide)) d)
  | .operand notUnary primary, _, d => primary.run_eq (.inr notUnary) d
  | .inner opens inner, _, d => by
    rw [run_leftParen opens]
    exact inner.run_eq (.inl (by decide)) (d + 1)
  | .unclosed opens inner open_end, _, d => by
    rw [run_leftParen opens, inner.run_eq (d + 1)]
    refine run_refuse (.inl rfl) fun t ht => ?_
    exact step_unclosed (inner.not_isBinaryOperator t ht) (open_end t ht)
  | .nothing none_starts, h, d => by
    refine run_refuse (.inl rfl) fun t ht => ?_
    obtain ⟨hopens, hnone⟩ := none_starts t ht
    have hunary : ¬Level.startsUnary t.kind := h.resolve_left (by decide) t ht
    exact step_nothing (Value.not_isLiteral_of_ofToken? hnone) hopens
      (mt Token.Kind.isUnaryOperator_iff.1 hunary)

theorem ChainStops.run_eq {l tokens stop} : ChainStops l tokens stop →
    ∀ d, run ⟨.done, d⟩ tokens = .error stop
  | .right takes right, d => by
    have hl := Level.one_lt_looseness_of_takes takes
    rw [run_binary (Token.Kind.isBinaryOperator_iff.2 ⟨_, takes⟩)]
    exact right.run_eq (.inl (Level.zero_lt_looseness_tighter hl)) d
  | .later takes right more, d => by
    rw [run_binary (Token.Kind.isBinaryOperator_iff.2 ⟨_, takes⟩), right.run_eq d]
    exact more.run_eq d

end

end Grammar

/-! ### The counter and the parser -/

namespace Parser

open Grammar Token

/-- What `parse` does, by the counter. -/
theorem parse_cases_run (p : Parser) :
    (∃ e rest, Counter.start.run p.upcoming = .ok rest ∧ p.parse = (.ok e, p.moveTo rest)) ∨
    ∃ stop, Passes p.upcoming stop.rest ∧ Counter.start.run p.upcoming = .error stop ∧
      p.parse = p.fail stop := by
  rcases p.parse_cases with ⟨e, rest, h, hend, heq⟩ | ⟨e, rest, h, hend, heq⟩ | ⟨stop, h, heq⟩
  · refine .inl ⟨e, rest, ?_, heq⟩
    rw [Counter.start, h.run_eq 0]
    exact Counter.run_accept Counter.step_end hend
  · refine .inr ⟨_, h.passes, ?_, heq⟩
    rw [Counter.start, h.run_eq 0]
    obtain ⟨t, ht, hnot⟩ := by simpa using hend
    refine Counter.run_refuse (.inr fun hnil => by simp [hnil] at ht) fun u hu => ?_
    obtain rfl := Option.some.inj (ht.symm.trans hu)
    exact Counter.step_trailing (h.not_isBinaryOperator t ht) fun he => by
      simp [isEnd_iff.2 he] at hnot
  · exact .inr ⟨stop, h.passes, h.run_eq (.inl (by decide)) 0, heq⟩

/-- Whether a list of tokens is an expression. -/
def Parses (tokens : List Token) : Prop := ∃ e p, (ofTokens tokens).parse = (.ok e, p)

/-- Whether some tokens can still become an expression, but not with a token behind them. -/
def FirstFault (before : List Token) (t : Token) : Prop :=
  (∃ more, Parses (before ++ more)) ∧ ∀ more, ¬Parses (before ++ t :: more)

theorem parse_ok_iff_run (p : Parser) :
    (∃ e q, p.parse = (.ok e, q)) ↔ ∃ rest, Counter.start.run p.upcoming = .ok rest := by
  rcases p.parse_cases_run with ⟨e, rest, hrun, heq⟩ | ⟨stop, -, hrun, heq⟩
  · simp [hrun, heq]
  · simp [hrun, heq, fail]

theorem parses_iff_run (tokens : List Token) :
    Parses tokens ↔ ∃ rest, Counter.start.run tokens = .ok rest := by
  rw [Parses, parse_ok_iff_run, upcoming_ofTokens, closed]
  split
  next h =>
    rw [List.getLast?_eq_none_iff.1 h]
    exact Counter.run_append_end rfl _ []
  next last h =>
    split
    · exact Iff.rfl
    · exact Counter.run_append_end rfl _ _

/-- A counter stops at the first fault. -/
theorem firstFault_of_run {c : Counter} {read : List Token} {t : Token} {cause : Cause}
    (hafter : Counter.start.after read = some c) (hstep : c.step t.kind = .refuse cause) :
    FirstFault read t := by
  constructor
  · refine ⟨c.completion, (parses_iff_run _).2 ⟨[], ?_⟩⟩
    rw [Counter.run_append hafter, Counter.run_completion]
  · intro more h
    obtain ⟨rest, hrun⟩ := (parses_iff_run _).1 h
    rw [Counter.run_append hafter, Counter.run, hstep] at hrun
    simp at hrun

/-- A parser, wherever calls have moved it, accepts what the counter accepts. Otherwise it stops at
the token where the counter stops, for the same cause, and stands there. That is the first fault:
what was read before can still become an expression, but not with this token. -/
theorem parse_eq_count (tokens : List Token) (calls : List Call) :
    let p := (ofTokens tokens).afterCalls calls
    ((∃ e q, p.parse = (.ok e, q)) ↔ ∃ rest, Counter.start.run p.upcoming = .ok rest) ∧
    ∀ cause rest, Counter.start.run p.upcoming = .error ⟨cause, rest⟩ →
      ∃ before t after q, rest = t :: after ∧ p.upcoming = before ++ t :: after ∧
        p.parse = (.error ⟨cause, t⟩, q) ∧ q.tokens = p.tokens ∧
        q.position = p.position + before.length ∧ q.current = t ∧ FirstFault before t := by
  intro p
  have hguarded : p.Guarded := (guarded_ofTokens tokens).afterCalls calls
  refine ⟨parse_ok_iff_run p, fun cause rest hrun => ?_⟩
  rcases p.parse_cases_run with ⟨e, rest', hok, -⟩ | ⟨stop, hpass, herror, heq⟩
  · simp [hok] at hrun
  · obtain rfl := Except.error.inj (herror.symm.trans hrun)
    obtain ⟨t, after, rfl⟩ := List.exists_cons_of_ne_nil (hguarded.ne_nil_of_passes hpass)
    obtain ⟨before, c, hup, hafter, hstep⟩ := Counter.exists_after_of_run_error hrun
    refine ⟨before, t, after, p.moveTo (t :: after), rfl, hup, ?_, rfl, ?_, ?_,
      firstFault_of_run hafter hstep⟩
    · rw [heq, fail_eq p hpass.suffix, List.headD_cons]
    · exact position_moveTo hup hguarded.position_le_length
    · rw [current_eq, upcoming_moveTo p hpass.suffix, List.headD_cons]

end Parser

end LoxCalc
