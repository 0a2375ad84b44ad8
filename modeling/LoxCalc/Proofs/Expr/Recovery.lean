import LoxCalc.Proofs.Expr.Counter

/-!
# Recovery at semicolons

No expression goes over a semicolon, so a parser stops in front of it or before, and synchronizing
moves it right behind. Main statement: `attempts_segments`, a parser that reads and synchronizes in
turn reads every part between two semicolons once, and comes to what a parser of that part alone
comes to.
-/

namespace LoxCalc

namespace Counter

theorem eq_endOfInput_of_step {c : Counter} {k : Token.Kind} (h : c.step k = .accept) :
    k = .endOfInput := by
  unfold step at h
  split at h <;> split_ifs at h
  next hend => exact hend.1

/-- No counter goes on at a semicolon. -/
theorem exists_step_semicolon (c : Counter) :
    ∃ cause, c.step (.symbol .semicolon) = .refuse cause := by
  rcases c with ⟨_ | _, _ | d⟩
  · exact ⟨.expectedExpression, rfl⟩
  · exact ⟨.expectedExpression, rfl⟩
  · exact ⟨.expectedEnd, rfl⟩
  · exact ⟨.expectedRightParen, rfl⟩

/-- A counter stops at a semicolon or before, whatever comes behind. -/
theorem exists_run_semicolon (c : Counter) {tokens : List Token} (htokens : ∀ t ∈ tokens, ¬t.isEnd)
    {semicolon : Token} (hs : semicolon.kind = .symbol .semicolon) :
    ∃ read inner t after cause, tokens = read ++ inner ∧ inner ++ [semicolon] = t :: after ∧
      ∀ behind, c.run (tokens ++ semicolon :: behind) = .error ⟨cause, t :: (after ++ behind)⟩ := by
  induction tokens generalizing c with
  | nil =>
    obtain ⟨cause, hstep⟩ := c.exists_step_semicolon
    refine ⟨[], [], semicolon, [], cause, rfl, rfl, fun behind => ?_⟩
    rw [List.nil_append, run, hs, hstep]
    rfl
  | cons u tokens ih =>
    obtain ⟨hu, htokens⟩ := List.forall_mem_cons.1 htokens
    cases hstep : c.step u.kind with
    | go c' =>
      obtain ⟨read, inner, t, after, cause, rfl, hinner, hrun⟩ := ih c' htokens
      refine ⟨u :: read, inner, t, after, cause, rfl, hinner, fun behind => ?_⟩
      rw [List.cons_append, run_go hstep, hrun]
    | accept => exact absurd (Token.isEnd_iff.2 (eq_endOfInput_of_step hstep)) hu
    | refuse cause =>
      refine ⟨[], u :: tokens, u, tokens ++ [semicolon], cause, rfl, rfl, fun behind => ?_⟩
      rw [List.cons_append, run, hstep, List.append_assoc]
      rfl

end Counter

namespace Parser

open Grammar Token

/-! ### What a parser makes of the tokens to come -/

/-- What comes of reading some tokens, and the tokens at which that ends. -/
def outcome (tokens : List Token) : Except SyntaxFault Expr × List Token :=
  match expression tokens with
  | .error stop => (.error ⟨stop.cause, stop.rest.headD (.endOn 1)⟩, stop.rest)
  | .ok found =>
    if (found.rest.headD (.endOn 1)).isEnd then (.ok found.expr, found.rest)
    else (.error ⟨.expectedEnd, found.rest.headD (.endOn 1)⟩, found.rest)

/-- A parser looks at nothing but the tokens to come. -/
theorem parse_eq_outcome (p : Parser) :
    p.parse = ((outcome p.upcoming).1, p.moveTo (outcome p.upcoming).2) := by
  rw [parse, outcome, expression]
  cases hparse : Grammar.parse .equality p.upcoming with
  | error stop => exact p.fail_eq (stops_of_parse hparse).passes.suffix
  | ok found =>
    have hsuffix := (reads_of_parse hparse).passes.suffix
    dsimp only
    rw [isAtEnd, current_eq, upcoming_moveTo p hsuffix]
    split
    · rfl
    · exact p.fail_eq hsuffix

/-- A parser that the counter stops is at fault there. -/
theorem parse_of_run {p : Parser} {cause : Cause} {t : Token} {rest : List Token}
    (h : Counter.start.run p.upcoming = .error ⟨cause, t :: rest⟩) :
    p.parse = (.error ⟨cause, t⟩, p.moveTo (t :: rest)) := by
  rcases p.parse_cases_run with ⟨e, rest', hrun, -⟩ | ⟨stop, hpass, hrun, hparse⟩
  · cases hrun.symm.trans h
  · obtain rfl := Except.error.inj (hrun.symm.trans h)
    rw [hparse, p.fail_eq hpass.suffix]
    rfl

end Parser

/-! ### Segments -/

/-- Whether a token neither ends nor starts a statement. -/
def Token.IsInner (t : Token) : Prop :=
  ¬t.isEnd ∧ t.kind ≠ .symbol .semicolon ∧ ¬t.kind.startsStatement

/-- Tokens in which no statement ends or starts, and the semicolon behind them. -/
structure Segment where
  tokens : List Token
  semicolon : Token
  isInner : ∀ t ∈ tokens, t.IsInner
  isSemicolon : semicolon.kind = .symbol .semicolon

namespace Segment

/-- The tokens of a segment with its semicolon. -/
def all (s : Segment) : List Token := s.tokens ++ [s.semicolon]

/-- A semicolon with nothing in front of it. -/
def bare : Segment := ⟨[], ⟨.symbol .semicolon, ";", 1⟩, by simp, rfl⟩

/-- A semicolon behind two operands. -/
def operands : Segment where
  tokens := [Counter.nilToken, Counter.nilToken]
  semicolon := ⟨.symbol .semicolon, ";", 1⟩
  isInner := by simp [Counter.nilToken, Token.IsInner, Token.isEnd, Token.kind, Token.Data.kind,
    Token.Kind.startsStatement]
  isSemicolon := rfl

end Segment

namespace Parser

open Grammar Token

theorem boundary_semicolon {semicolon : Token} (hs : semicolon.kind = .symbol .semicolon)
    (behind : List Token) : boundary semicolon behind = behind := by
  cases behind with
  | nil => rfl
  | cons t behind => simp [boundary, hs]

/-- Behind a token before a semicolon, the next statement starts behind the semicolon. -/
theorem boundary_of_isInner {inner : List Token} (hinner : ∀ t ∈ inner, t.IsInner)
    {semicolon : Token} (hs : semicolon.kind = .symbol .semicolon) (behind : List Token) {t : Token}
    {after : List Token} (h : inner ++ [semicolon] = t :: after) :
    boundary t (after ++ behind) = behind := by
  induction inner generalizing t after with
  | nil =>
    obtain ⟨rfl, rfl⟩ := List.cons.inj h
    exact boundary_semicolon hs behind
  | cons u inner ih =>
    obtain ⟨rfl, rfl⟩ := List.cons.inj h
    obtain ⟨⟨-, hnot, -⟩, hinner⟩ := List.forall_mem_cons.1 hinner
    -- the next token is one of those before the semicolon, or the semicolon
    obtain ⟨v, after, hv⟩ := List.exists_cons_of_ne_nil (l := inner ++ [semicolon]) (by simp)
    have hgo : ¬v.isEnd ∧ ¬v.kind.startsStatement := by
      have hmem : v ∈ inner ++ [semicolon] := hv ▸ List.mem_cons_self
      rcases List.mem_append.1 hmem with hmem | hmem
      · exact ⟨(hinner v hmem).1, (hinner v hmem).2.2⟩
      · rw [List.mem_singleton.1 hmem]
        simp [isEnd, hs, Kind.startsStatement]
    rw [List.append_eq, hv, List.cons_append, boundary, if_neg (by simp [hgo, hnot])]
    exact ih hinner hv

/-- Synchronizing in front of a semicolon moves behind it. -/
theorem synchronize_of_isInner {p : Parser} {inner behind : List Token}
    (hinner : ∀ t ∈ inner, t.IsInner) {semicolon : Token}
    (hs : semicolon.kind = .symbol .semicolon) {t : Token} {after : List Token}
    (h : inner ++ [semicolon] = t :: after) (hp : p.upcoming = t :: (after ++ behind)) :
    p.synchronize = p.moveTo behind := by
  have hend : ¬t.isEnd := by
    have hmem : t ∈ inner ++ [semicolon] := h ▸ List.mem_cons_self
    rcases List.mem_append.1 hmem with hmem | hmem
    · exact (hinner t hmem).1
    · exact not_isEnd_of_symbol (List.mem_singleton.1 hmem ▸ hs)
  rw [synchronize_of_upcoming hp hend, boundary_of_isInner hinner hs behind h]

/-! ### Reading and synchronizing in turn -/

/-- One reading of several: where the parser stood before, what came of it, and where the parser
stood then. -/
structure Attempt where
  start : Nat
  result : Except SyntaxFault Expr
  stop : Nat

/-- The fault that an attempt ended with, if it did. -/
def Attempt.fault? (a : Attempt) : Option SyntaxFault :=
  match a.result with
  | .error fault => some fault
  | .ok _ => none

/-- Reads one expression more than `n`, with a synchronization between each two. The faults go into
the report. -/
def attempts (p : Parser) (r : Report) : Nat → List Attempt × Report
  | 0 =>
    let (result, q, r) := p.parseReporting r
    ([⟨p.position, result, q.position⟩], r)
  | n + 1 =>
    let (result, q, r) := p.parseReporting r
    let (more, r) := q.synchronize.attempts r n
    (⟨p.position, result, q.position⟩ :: more, r)

/-- The first attempt of a parser. -/
def attempt (p : Parser) : Attempt := ⟨p.position, p.parse.1, p.parse.2.position⟩

theorem parseReporting_eq (p : Parser) (r : Report) : p.parseReporting r =
    (p.parse.1, p.parse.2, r.addAll (p.attempt.fault?.toList.map SyntaxFault.issue)) := by
  rw [parseReporting, attempt, Attempt.fault?]
  rcases p.parse with ⟨e | fault, q⟩
  · rfl
  · simp

theorem attempts_zero (p : Parser) (r : Report) : p.attempts r 0 =
    ([p.attempt], r.addAll (p.attempt.fault?.toList.map SyntaxFault.issue)) := by
  rw [attempts, parseReporting_eq]
  rfl

theorem attempts_succ (p : Parser) (r : Report) (n : Nat) :
    p.attempts r (n + 1) =
      let more := p.parse.2.synchronize.attempts
        (r.addAll (p.attempt.fault?.toList.map SyntaxFault.issue)) n
      (p.attempt :: more.1, more.2) := by
  rw [attempts, parseReporting_eq]
  rfl

/-- Each attempt that fails adds one issue, and nothing else does. -/
theorem attempts_snd (p : Parser) (r : Report) (n : Nat) : (p.attempts r n).2 =
    r.addAll (((p.attempts r n).1.filterMap Attempt.fault?).map SyntaxFault.issue) := by
  induction n generalizing p r with
  | zero =>
    rw [attempts_zero]
    cases h : p.attempt.fault? <;> simp [h]
  | succ n ih =>
    rw [attempts_succ]
    dsimp only
    rw [ih, ← Report.addAll_append, ← List.map_append]
    cases h : p.attempt.fault? <;> simp [h]

theorem length_attempts (p : Parser) (r : Report) (n : Nat) :
    (p.attempts r n).1.length = n + 1 := by
  induction n generalizing p r with
  | zero => rw [attempts_zero]; rfl
  | succ n ih => rw [attempts_succ, List.length_cons, ih]

end Parser

namespace Segment

open LoxCalc.Parser (ofTokens Attempt)

/-- Whether an attempt from a position on fails at a token of a segment, as it does on the segment
alone. -/
structure Fails (s : Segment) (start : Nat) (a : Attempt) (fault : SyntaxFault) : Prop where
  start_eq : a.start = start
  result_eq : a.result = .error fault
  alone : (ofTokens s.all).parse.1 = .error fault
  start_le : start ≤ a.stop
  token_eq : s.all[a.stop - start]? = some fault.token

theorem closed_all (s : Segment) :
    Parser.closed s.all = s.all ++ [.endOn s.semicolon.line] := by
  have hend : ¬s.semicolon.isEnd := Token.not_isEnd_of_symbol s.isSemicolon
  simp [Parser.closed, all, hend]

/-- A parser that comes to a segment fails there, and is moved behind it. -/
theorem exists_fails (s : Segment) {p : Parser} {behind : List Token}
    (h : p.upcoming = s.all ++ behind) (hp : p.position ≤ p.tokens.length) :
    (∃ fault, s.Fails p.position p.attempt fault) ∧ p.parse.2.synchronize = p.moveTo behind := by
  obtain ⟨read, inner, t, after, cause, htokens, hinner, hrun⟩ :=
    Counter.start.exists_run_semicolon (fun t ht => (s.isInner t ht).1) s.isSemicolon
  have hparse : ∀ {q : Parser} {behind : List Token}, q.upcoming = s.all ++ behind →
      q.parse = (.error ⟨cause, t⟩, q.moveTo (t :: (after ++ behind))) := by
    intro q behind hq
    refine Parser.parse_of_run ?_
    rw [hq, all, List.append_assoc]
    exact hrun behind
  have hall : s.all = read ++ t :: after := by rw [all, htokens, List.append_assoc, hinner]
  have hup : p.upcoming = read ++ t :: (after ++ behind) := by
    rw [h, hall, List.append_assoc, List.cons_append]
  have hstop : (p.moveTo (t :: (after ++ behind))).position = p.position + read.length :=
    Parser.position_moveTo hup hp
  refine ⟨⟨⟨cause, t⟩, ?_⟩, ?_⟩
  · have hattempt : p.attempt = ⟨p.position, .error ⟨cause, t⟩, p.position + read.length⟩ := by
      rw [Parser.attempt, hparse h, hstop]
    rw [hattempt]
    refine ⟨rfl, rfl, ?_, Nat.le_add_right _ _, ?_⟩
    · have hfresh : (ofTokens s.all).upcoming = s.all ++ [.endOn s.semicolon.line] := s.closed_all
      rw [hparse hfresh]
    · simp [hall]
  · have hinner' : ∀ u ∈ inner, u.IsInner := fun u hu =>
      s.isInner u (htokens ▸ List.mem_append_right read hu)
    have hmoved : (p.moveTo (t :: (after ++ behind))).upcoming = t :: (after ++ behind) :=
      p.upcoming_moveTo ⟨read, hup.symm⟩
    rw [hparse h, Parser.synchronize_of_isInner hinner' s.isSemicolon hinner hmoved]
    rfl

end Segment

namespace Parser

/-- Where the segment with a number starts, counted from the first. -/
def startOf (segments : List Segment) (i : Nat) : Nat :=
  ((segments.take i).flatMap Segment.all).length

theorem attempts_of_upcoming {segments : List Segment} {last : List Token} {p : Parser}
    (h : p.upcoming = segments.flatMap Segment.all ++ last) (hp : p.position ≤ p.tokens.length)
    (r : Report) :
    (∀ (i : Nat) (s : Segment), segments[i]? = some s → ∃ a fault,
      (p.attempts r segments.length).1[i]? = some a ∧
        s.Fails (p.position + startOf segments i) a fault) ∧
    ∃ a, (p.attempts r segments.length).1[segments.length]? = some a ∧
      a.start = p.position + startOf segments segments.length ∧ a.result = (outcome last).1 := by
  induction segments generalizing p r with
  | nil =>
    refine ⟨by simp, p.attempt, ?_, ?_, ?_⟩
    · rw [List.length_nil, attempts_zero]
      rfl
    · rfl
    · have hlast : p.upcoming = last := h
      rw [attempt, parse_eq_outcome, hlast]
  | cons s segments ih =>
    rw [List.flatMap_cons, List.append_assoc] at h
    obtain ⟨⟨fault, hfails⟩, hsync⟩ := s.exists_fails h hp
    have hstart : ∀ i, startOf (s :: segments) (i + 1) = s.all.length + startOf segments i := by
      intro i
      simp [startOf]
    have hposition : (p.moveTo (segments.flatMap Segment.all ++ last)).position =
        p.position + s.all.length := position_moveTo h hp
    have hle : (p.moveTo (segments.flatMap Segment.all ++ last)).position ≤ p.tokens.length :=
      Nat.sub_le _ _
    rw [List.length_cons, attempts_succ, hsync]
    obtain ⟨hmore, a, ha, ha_start, ha_result⟩ := ih (p.upcoming_moveTo ⟨s.all, h.symm⟩) hle
      (r.addAll (p.attempt.fault?.toList.map SyntaxFault.issue))
    refine ⟨fun i s' hs' => ?_, a, ha, ?_, ha_result⟩
    · cases i with
      | zero =>
        obtain rfl : s = s' := by simpa using hs'
        exact ⟨p.attempt, fault, rfl, hfails⟩
      | succ i =>
        obtain ⟨a', fault', ha', hfails'⟩ := hmore i s' hs'
        refine ⟨a', fault', ha', ?_⟩
        rwa [hstart, ← Nat.add_assoc, ← hposition]
    · rw [ha_start, hstart, ← Nat.add_assoc, hposition]

/-- A parser that reads and synchronizes in turn comes to every segment once. The attempt for a
segment starts where the segment does, fails at a token of the segment or at its semicolon, and has
the fault that a parser of the segment alone has. The last attempt comes to what a parser of the
tokens behind all semicolons comes to. The report has one issue for every attempt that fails, in
their order. -/
theorem attempts_segments (segments : List Segment) (last : List Token) (e : Token) (he : e.isEnd)
    (r : Report) :
    let p := ofTokens (segments.flatMap Segment.all ++ (last ++ [e]))
    let run := p.attempts r segments.length
    run.1.length = segments.length + 1 ∧
    (∀ (i : Nat) (s : Segment), segments[i]? = some s →
      ∃ a fault, run.1[i]? = some a ∧ s.Fails (startOf segments i) a fault) ∧
    (∃ a, run.1[segments.length]? = some a ∧ a.start = startOf segments segments.length ∧
      a.result = (ofTokens (last ++ [e])).parse.1) ∧
    run.2 = r.addAll ((run.1.filterMap Attempt.fault?).map SyntaxFault.issue) := by
  intro p run
  have hclosed : ∀ tokens, closed (tokens ++ [e]) = tokens ++ [e] := by simp [closed, he]
  have hup : p.upcoming = segments.flatMap Segment.all ++ (last ++ [e]) := by
    rw [upcoming_ofTokens, ← List.append_assoc, hclosed]
  obtain ⟨hsegments, a, ha, ha_start, ha_result⟩ :=
    attempts_of_upcoming hup (Nat.zero_le p.tokens.length) r
  have hzero : p.position = 0 := rfl
  simp only [hzero, Nat.zero_add] at hsegments ha_start
  refine ⟨length_attempts p r _, hsegments, ⟨a, ha, ha_start, ?_⟩, attempts_snd p r _⟩
  rw [ha_result, parse_eq_outcome, upcoming_ofTokens, hclosed]

/-- Two operands without an operator, nothing at all, and an expression: the third attempt reads. -/
theorem attempts_segments_operands :
    (Token.endOn 1).isEnd ∧
      let segments := [Segment.operands, Segment.bare]
      let p := ofTokens (segments.flatMap Segment.all ++ ([Counter.nilToken] ++ [.endOn 1]))
      let run := p.attempts .empty 2
      run.1.length = 3 ∧ (∃ a fault, run.1[0]? = some a ∧ Segment.operands.Fails 0 a fault) ∧
        (∃ a fault, run.1[1]? = some a ∧ Segment.bare.Fails 3 a fault) ∧
        ∃ a, run.1[2]? = some a ∧ a.start = 4 ∧ a.result = .ok (.literal .nil) := by
  obtain ⟨hlength, hsegments, ⟨a, ha, hstart, hresult⟩, -⟩ :=
    attempts_segments [Segment.operands, Segment.bare] [Counter.nilToken] (.endOn 1) rfl .empty
  have hlast : (ofTokens ([Counter.nilToken] ++ [.endOn 1])).parse.1 = .ok (.literal .nil) :=
    congrArg Prod.fst (parse_ofTokens_eq_ok_iff.2 ⟨⟨⟨.primary, .literal .nil⟩,
      Expr.spelledBy_literal.2 ⟨Counter.nilToken, rfl, rfl⟩⟩, rfl⟩)
  exact ⟨rfl, hlength, hsegments 0 _ rfl, hsegments 1 _ rfl, a, ha, hstart, hresult.trans hlast⟩

end Parser

end LoxCalc
