import LoxCalc.Proofs.Expr.Indexed
import LoxCalc.Proofs.Expr.Places

/-!
# Tokens ahead of a parser

The tokens ahead of a parser are those from where it stands up to the first end of input. They alone
decide what its calls return: nothing behind that end is looked at, and what was read before leaves
no trace but the position. Main statement: `replies_ahead`, a parser that has gone through any calls
goes on as a new one does that is made from the tokens to come.
-/

namespace LoxCalc

namespace Token

/-! ### Up to the first end of input -/

/-- The tokens up to the first end of input, and that end. -/
def throughEnd : List Token → List Token
  | [] => []
  | t :: rest => if t.isEnd then [t] else t :: throughEnd rest

theorem throughEnd_of_isEnd {t : Token} (ht : t.isEnd) (rest : List Token) :
    throughEnd (t :: rest) = [t] :=
  if_pos ht

theorem throughEnd_cons {t : Token} (ht : ¬t.isEnd) (rest : List Token) :
    throughEnd (t :: rest) = t :: throughEnd rest :=
  if_neg ht

theorem throughEnd_append {read : List Token} (hread : ∀ t ∈ read, ¬t.isEnd) (rest : List Token) :
    throughEnd (read ++ rest) = read ++ throughEnd rest := by
  induction read with
  | nil => rfl
  | cons t read ih =>
    obtain ⟨ht, hread⟩ := List.forall_mem_cons.1 hread
    rw [List.cons_append, throughEnd_cons ht, ih hread, List.cons_append]

theorem throughEnd_throughEnd (tokens : List Token) :
    throughEnd (throughEnd tokens) = throughEnd tokens := by
  induction tokens with
  | nil => rfl
  | cons t rest ih =>
    by_cases ht : t.isEnd
    · rw [throughEnd_of_isEnd ht, throughEnd_of_isEnd ht]
    · rw [throughEnd_cons ht, throughEnd_cons ht, ih]

/-- What stands behind an end of input does not matter. -/
theorem throughEnd_append_cons (before : List Token) {e : Token} (he : e.isEnd)
    (behind behind' : List Token) :
    throughEnd (before ++ e :: behind) = throughEnd (before ++ e :: behind') := by
  induction before with
  | nil => rw [List.nil_append, List.nil_append, throughEnd_of_isEnd he, throughEnd_of_isEnd he]
  | cons t before ih =>
    rw [List.cons_append, List.cons_append]
    by_cases ht : t.isEnd
    · rw [throughEnd_of_isEnd ht, throughEnd_of_isEnd ht]
    · rw [throughEnd_cons ht, throughEnd_cons ht, ih]

theorem relabels_throughEnd : Relabels id throughEnd := by
  refine ⟨fun t => rfl, fun t rest ht => throughEnd_cons ht rest, fun tokens => ?_⟩
  cases tokens with
  | nil => rfl
  | cons t rest =>
    by_cases ht : t.isEnd
    · rw [throughEnd_of_isEnd ht]
      rfl
    · rw [throughEnd_cons ht]
      rfl

end Token

namespace Parser

open Token

theorem boundary_throughEnd (previous : Token) (tokens : List Token) :
    boundary previous (throughEnd tokens) = throughEnd (boundary previous tokens) := by
  induction tokens generalizing previous with
  | nil => rfl
  | cons t after ih =>
    by_cases ht : t.isEnd
    · simp [throughEnd_of_isEnd ht, boundary, ht]
    · rw [throughEnd_cons ht, boundary, boundary]
      split
      · rw [throughEnd_cons ht]
      · exact ih t

/-! ### Calls look ahead -/

/-- The tokens from where a parser stands up to the first end of input. -/
def ahead (p : Parser) : List Token := throughEnd p.upcoming

/-- A parser of the tokens ahead. -/
def onlyAhead (p : Parser) : Parser := ⟨p.ahead, 0⟩

theorem upcoming_onlyAhead (p : Parser) : p.onlyAhead.upcoming = throughEnd p.upcoming := rfl

theorem ahead_onlyAhead (p : Parser) : p.onlyAhead.ahead = p.ahead :=
  throughEnd_throughEnd p.upcoming

theorem ahead_moveTo_onlyAhead (p : Parser) {rest : List Token} (h : Passes p.upcoming rest) :
    (p.moveTo rest).ahead = (p.onlyAhead.moveTo (throughEnd rest)).ahead := by
  have hsuffix : throughEnd rest <:+ p.onlyAhead.upcoming := by
    obtain ⟨read, hread, hup⟩ := h
    rw [upcoming_onlyAhead, hup, throughEnd_append hread]
    exact List.suffix_append read _
  rw [ahead, ahead, upcoming_moveTo p h.suffix, upcoming_moveTo p.onlyAhead hsuffix,
    throughEnd_throughEnd]

/-- A call returns what it returns to a parser of the tokens ahead alone, and leaves the same tokens
ahead. -/
theorem Guarded.answer_onlyAhead {p : Parser} (h : p.Guarded) (c : Call) :
    (p.answer c).1 = (p.onlyAhead.answer c).1 ∧ (p.call c).ahead = (p.onlyAhead.call c).ahead := by
  cases c with
  | parse =>
    obtain ⟨rest, hpass, hmove, hparse⟩ :=
      h.parse_relabeled relabels_throughEnd p.upcoming_onlyAhead
    rw [SyntaxFault.mapResult_id] at hparse
    constructor
    · rw [answer, answer, hparse]
    · rw [Parser.call, Parser.call, hmove, hparse]
      exact p.ahead_moveTo_onlyAhead hpass
  | synchronize =>
    refine ⟨rfl, ?_⟩
    obtain ⟨t, after, hup⟩ := h.hasEnd_upcoming.exists_cons
    have honly : p.onlyAhead.upcoming = throughEnd (t :: after) := hup ▸ p.upcoming_onlyAhead
    rw [Parser.call, Parser.call]
    by_cases ht : t.isEnd
    · rw [throughEnd_of_isEnd ht] at honly
      rw [synchronize_of_isAtEnd (isAtEnd_of_upcoming hup ▸ ht),
        synchronize_of_isAtEnd (isAtEnd_of_upcoming honly ▸ ht), ahead_onlyAhead]
    · rw [throughEnd_cons ht] at honly
      rw [synchronize_of_upcoming hup ht, synchronize_of_upcoming honly ht, boundary_throughEnd]
      exact p.ahead_moveTo_onlyAhead (hup ▸ (passes_boundary t after).cons ht)

theorem answer_eq_of_ahead {p q : Parser} (hp : p.Guarded) (hq : q.Guarded)
    (h : p.ahead = q.ahead) (c : Call) :
    (p.answer c).1 = (q.answer c).1 ∧ (p.call c).ahead = (q.call c).ahead := by
  have honly : p.onlyAhead = q.onlyAhead := congrArg (Parser.mk · 0) h
  obtain ⟨hresult, hahead⟩ := hp.answer_onlyAhead c
  obtain ⟨hresult', hahead'⟩ := hq.answer_onlyAhead c
  exact ⟨by rw [hresult, hresult', honly], by rw [hahead, hahead', honly]⟩

/-- Parsers with the same tokens ahead return the same to all calls. -/
theorem answers_eq_of_ahead {p q : Parser} (hp : p.Guarded) (hq : q.Guarded)
    (h : p.ahead = q.ahead) (calls : List Call) :
    (p.answers calls).1 = (q.answers calls).1 ∧
      (p.afterCalls calls).ahead = (q.afterCalls calls).ahead := by
  induction calls generalizing p q with
  | nil => exact ⟨rfl, h⟩
  | cons c calls ih =>
    obtain ⟨hresult, hahead⟩ := answer_eq_of_ahead hp hq h c
    obtain ⟨hresults, hlast⟩ := ih (hp.call c) (hq.call c) hahead
    refine ⟨?_, hlast⟩
    rw [answers_cons, answers_cons]
    exact congrArg₂ List.cons hresult hresults

/-! ### Positions -/

theorem Guarded.tokens_afterCalls {p : Parser} (h : p.Guarded) (calls : List Call) :
    (p.afterCalls calls).tokens = p.tokens := by
  induction calls generalizing p with
  | nil => rfl
  | cons c calls ih =>
    obtain ⟨rest, -, heq⟩ := p.call_eq_moveTo h.position_le_length c
    have htokens : (p.call c).tokens = p.tokens := by rw [heq, tokens_moveTo]
    exact (ih (h.call c)).trans htokens

/-- The tokens ahead end where the tokens before the first end of input do, one behind. -/
theorem Guarded.position_add_length_ahead {p : Parser} (h : p.Guarded) :
    p.position + p.ahead.length = (beforeEnd p.tokens).length + 1 := by
  obtain ⟨t, rest, ht, hup⟩ := h.upcoming_eq
  have hread : ∀ u ∈ (beforeEnd p.tokens).drop p.position, ¬u.isEnd := fun u hu =>
    not_isEnd_of_mem_beforeEnd (List.mem_of_mem_drop hu)
  have hle := h.position_le
  rw [ahead, hup, throughEnd_append hread, throughEnd_of_isEnd ht, List.length_append,
    List.length_drop, List.length_singleton]
  omega

/-- No call moves back. -/
theorem Guarded.position_le_afterCalls {p : Parser} (h : p.Guarded) (calls : List Call) :
    p.position ≤ (p.afterCalls calls).position := by
  induction calls generalizing p with
  | nil => exact Nat.le_refl _
  | cons c calls ih =>
    obtain ⟨rest, hpass, heq⟩ := p.call_eq_moveTo h.position_le_length c
    have hle : p.position ≤ (p.call c).position :=
      heq ▸ position_le_moveTo hpass h.position_le_length
    exact hle.trans (ih (h.call c))

/-- Parsers with the same tokens ahead move equally far. -/
theorem position_afterCalls_of_ahead {p q : Parser} (hp : p.Guarded) (hq : q.Guarded)
    (h : p.ahead = q.ahead) (calls : List Call) :
    (p.afterCalls calls).position + q.position = p.position + (q.afterCalls calls).position := by
  have hahead := congrArg List.length (answers_eq_of_ahead hp hq h calls).2
  have hlength := congrArg List.length h
  have hp' := (hp.afterCalls calls).position_add_length_ahead
  have hq' := (hq.afterCalls calls).position_add_length_ahead
  rw [hp.tokens_afterCalls, ← hp.position_add_length_ahead] at hp'
  rw [hq.tokens_afterCalls, ← hq.position_add_length_ahead] at hq'
  omega

/-! ### Calls with a report -/

/-- What some calls return, and the parser and the report after them. -/
def replies (p : Parser) (r : Report) :
    List Call → List (Option (Except SyntaxFault Expr)) × Parser × Report
  | [] => ([], p, r)
  | .parse :: calls =>
    let (result, q, r) := p.parseReporting r
    let (results, last) := q.replies r calls
    (some result :: results, last)
  | .synchronize :: calls =>
    let (results, last) := p.synchronize.replies r calls
    (none :: results, last)

/-- The fault that a call returned, if it did. -/
def faultOf? : Option (Except SyntaxFault Expr) → Option SyntaxFault
  | some (.error fault) => some fault
  | _ => none

/-- The issues of what some calls returned: one for each fault, on the line and with the location of
its token. -/
def issuesOf (results : List (Option (Except SyntaxFault Expr))) : List Issue :=
  (results.filterMap faultOf?).map fun fault =>
    ⟨.reading, fault.token.line, fault.token.location, fault.cause.message⟩

theorem issuesOf_cons (result : Option (Except SyntaxFault Expr))
    (results : List (Option (Except SyntaxFault Expr))) :
    issuesOf (result :: results) = issuesOf [result] ++ issuesOf results := by
  rw [issuesOf, ← List.singleton_append, List.filterMap_append, List.map_append]
  rfl

theorem parseReporting_eq_issuesOf (p : Parser) (r : Report) :
    p.parseReporting r = (p.parse.1, p.parse.2, r.addAll (issuesOf [some p.parse.1])) := by
  rw [parseReporting]
  rcases p.parse with ⟨fault | e, q⟩
  · rfl
  · exact congrArg (fun r => (_, _, r)) r.addAll_nil.symm

/-- The report does not matter for what calls return, and gets the issues of that. -/
theorem replies_eq (p : Parser) (r : Report) (calls : List Call) : p.replies r calls =
    ((p.answers calls).1, p.afterCalls calls, r.addAll (issuesOf (p.answers calls).1)) := by
  induction calls generalizing p r with
  | nil => exact congrArg (fun r => ([], p, r)) r.addAll_nil.symm
  | cons c calls ih =>
    rw [answers_cons, issuesOf_cons, Report.addAll_append]
    cases c with
    | parse =>
      rw [replies, parseReporting_eq_issuesOf]
      dsimp only
      rw [ih]
      rfl
    | synchronize =>
      rw [replies, ih]
      exact congrArg (fun r => (_, _, r)) (congrArg (Report.addAll · _) r.addAll_nil.symm)

/-! ### New parsers -/

theorem exists_getLast?_closed (tokens : List Token) :
    ∃ last, (closed tokens).getLast? = some last ∧ last.isEnd := by
  unfold closed
  split
  · exact ⟨.endOn 1, rfl, rfl⟩
  next last hlast =>
    split
    next hend => exact ⟨last, hlast, hend⟩
    · exact ⟨.endOn last.line, List.getLast?_concat, rfl⟩

theorem prefix_closed (tokens : List Token) : tokens <+: closed tokens := by
  unfold closed
  split
  next h => exact List.getLast?_eq_none_iff.1 h ▸ List.nil_prefix
  · split
    · exact List.prefix_rfl
    · exact List.prefix_append tokens _

/-- Tokens that end like those of a parser get no other end of input. -/
theorem closed_of_suffix {tokens rest : List Token} (h : rest <:+ closed tokens) (hne : rest ≠ []) :
    closed rest = rest := by
  obtain ⟨last, hlast, hend⟩ := exists_getLast?_closed tokens
  obtain ⟨front, hfront⟩ := h
  rw [← hfront, List.getLast?_append_of_ne_nil front hne] at hlast
  rw [closed, hlast]
  exact if_pos hend

theorem closed_drop {tokens : List Token} {k : Nat} (hk : k < tokens.length) :
    closed (tokens.drop k) = (closed tokens).drop k := by
  have hlast : (tokens.drop k).getLast? = tokens.getLast? := by
    rw [List.getLast?_drop, if_neg (Nat.not_le.2 hk)]
  rw [closed, closed, hlast]
  split
  next hnone =>
    rw [List.getLast?_eq_none_iff.1 hnone] at hk
    exact absurd hk (Nat.not_lt_zero k)
  next last _ =>
    split
    · rfl
    · rw [List.drop_append_of_le_length hk.le]

/-- Tokens behind an end of input are not ahead of a parser in front of it. -/
theorem ahead_ofTokens_append_cons (before : List Token) {e : Token} (he : e.isEnd)
    (behind behind' : List Token) :
    (ofTokens (before ++ e :: behind)).ahead = (ofTokens (before ++ e :: behind')).ahead := by
  obtain ⟨back, hback⟩ := prefix_closed (before ++ e :: behind)
  obtain ⟨back', hback'⟩ := prefix_closed (before ++ e :: behind')
  rw [ahead, ahead, upcoming_ofTokens, upcoming_ofTokens, ← hback, ← hback', List.append_assoc,
    List.append_assoc]
  exact throughEnd_append_cons before he (behind ++ back) (behind' ++ back')

/-- A parser goes on as a new one does that is made from its tokens to come. -/
theorem Guarded.exists_replies_eq {p : Parser} (h : p.Guarded)
    (hclosed : closed p.upcoming = p.upcoming) (calls : List Call) :
    let fresh := ofTokens p.upcoming
    ∃ results n, ∀ r,
      p.replies r calls = (results, ⟨p.tokens, p.position + n⟩, r.addAll (issuesOf results)) ∧
      fresh.replies r calls = (results, ⟨fresh.tokens, n⟩, r.addAll (issuesOf results)) := by
  intro fresh
  have hfresh : fresh.Guarded := guarded_ofTokens _
  have hahead : fresh.ahead = p.ahead := congrArg throughEnd hclosed
  obtain ⟨hanswers, -⟩ := answers_eq_of_ahead hfresh h hahead calls
  have hposition := position_afterCalls_of_ahead hfresh h hahead calls
  have hmoved : p.afterCalls calls =
      ⟨p.tokens, p.position + (fresh.afterCalls calls).position⟩ := by
    have hzero : fresh.position = 0 := rfl
    rw [← h.tokens_afterCalls calls, ← Nat.add_comm, hposition, hzero, Nat.zero_add]
  refine ⟨(p.answers calls).1, (fresh.afterCalls calls).position, fun r => ⟨?_, ?_⟩⟩
  · rw [replies_eq, hmoved]
  · rw [replies_eq, hanswers, ← hfresh.tokens_afterCalls calls]

/-! ### At the end of input -/

/-- At the end of input there is nothing to read, and nowhere to move to. -/
theorem Guarded.answers_of_isAtEnd {p : Parser} (h : p.Guarded) (hend : p.isAtEnd)
    (calls : List Call) : p.answers calls = (calls.map fun c =>
      if c = .parse then some (.error ⟨.expectedExpression, p.current⟩) else none, p) := by
  obtain ⟨t, after, hup⟩ := h.hasEnd_upcoming.exists_cons
  have ht : t.isEnd := isAtEnd_of_upcoming hup ▸ hend
  have hrun : Counter.start.run p.upcoming = .error ⟨.expectedExpression, t :: after⟩ := by
    rw [hup]
    refine Counter.run_refuse (.inl rfl) fun u hu => ?_
    obtain rfl := Option.some.inj hu
    rw [isEnd_iff.1 ht]
    rfl
  have hparse : p.answer .parse = (some (.error ⟨.expectedExpression, p.current⟩), p) := by
    rw [answer, parse_of_run hrun, ← hup, moveTo_upcoming h.position_le_length, current_eq, hup,
      List.headD_cons]
  have hsync : p.answer .synchronize = (none, p) :=
    congrArg (Prod.mk none) (synchronize_of_isAtEnd hend)
  induction calls with
  | nil => rfl
  | cons c calls ih =>
    have hanswer : p.answer c =
        (if c = .parse then some (.error ⟨.expectedExpression, p.current⟩) else none, p) := by
      cases c with
      | parse => exact hparse
      | synchronize => exact hsync
    rw [answers_cons, ← answer_snd, hanswer, ih]
    rfl

theorem isAtEnd_of_parse_eq_ok {p : Parser} {e : Expr} (h : p.parse.1 = .ok e) :
    p.parse.2.isAtEnd := by
  obtain ⟨rest, hr, hend, heq⟩ := parse_eq_ok_iff.1 (Prod.ext h rfl : p.parse = (.ok e, p.parse.2))
  rw [heq]
  exact (isAtEnd_moveTo p hr.passes.suffix).2 hend

/-- A parser depends only on the tokens from where it stands up to the first end of input. Whatever
is called, it never moves back nor past that end, and what stands behind that end changes neither
what is returned nor where it moves nor which issues are added. From then on it returns and adds
what a new parser does that is made from the tokens to come, and moves as far. The issues that are
added are one for each fault that is returned. Once an expression was read the parser is at the end
of input, where nothing more can be read. -/
theorem replies_ahead (tokens : List Token) (calls : List Call) :
    let p := ofTokens tokens
    let q := p.afterCalls calls
    let fresh := ofTokens (p.tokens.drop q.position)
    (∀ more, q.position ≤ (q.afterCalls more).position ∧
      (q.afterCalls more).position ≤ (beforeEnd p.tokens).length) ∧
    (∀ before e behind behind', tokens = before ++ e :: behind → e.isEnd → ∀ r,
      let here := p.replies r calls
      let other := (ofTokens (before ++ e :: behind')).replies r calls
      here.1 = other.1 ∧ here.2.1.position = other.2.1.position ∧ here.2.2 = other.2.2) ∧
    (q.position < tokens.length → ofTokens (tokens.drop q.position) = fresh) ∧
    (∀ more, ∃ results n, ∀ r,
      q.replies r more =
        (results, ⟨p.tokens, q.position + n⟩, r.addAll (issuesOf results)) ∧
      fresh.replies r more = (results, ⟨fresh.tokens, n⟩, r.addAll (issuesOf results))) ∧
    ∀ e, q.parse.1 = .ok e → q.parse.2.isAtEnd ∧ ∀ more,
      q.parse.2.answers more = (more.map fun c =>
        if c = .parse then some (.error ⟨.expectedExpression, q.parse.2.current⟩) else none,
        q.parse.2) := by
  intro p q fresh
  have hp : p.Guarded := guarded_ofTokens tokens
  have hq : q.Guarded := hp.afterCalls calls
  have htokens : q.tokens = p.tokens := hp.tokens_afterCalls calls
  have hup : p.tokens.drop q.position = q.upcoming := by rw [upcoming, htokens]
  have hclosed : closed q.upcoming = q.upcoming :=
    closed_of_suffix (hup ▸ List.drop_suffix _ _) (hq.ne_nil_of_passes (Passes.refl _))
  have hfresh : fresh = ofTokens q.upcoming := congrArg ofTokens hup
  refine ⟨fun more => ⟨hq.position_le_afterCalls more, ?_⟩, ?_, fun hlt => ?_, fun more => ?_,
    fun e he => ⟨isAtEnd_of_parse_eq_ok he, ?_⟩⟩
  · have hle := (hq.afterCalls more).position_le
    rwa [hq.tokens_afterCalls, htokens] at hle
  · rintro before e behind behind' rfl he r
    have hother := guarded_ofTokens (before ++ e :: behind')
    have hahead := ahead_ofTokens_append_cons before he behind behind'
    have hanswers := (answers_eq_of_ahead hp hother hahead calls).1
    have hposition := position_afterCalls_of_ahead hp hother hahead calls
    intro here other
    simp only [here, other, replies_eq]
    refine ⟨hanswers, ?_, by rw [hanswers]⟩
    simpa [ofTokens, p] using hposition
  · rw [hfresh, ofTokens, ofTokens, closed_drop hlt, hclosed]
    exact congrArg (Parser.mk · 0) hup
  · rw [hfresh, ← htokens]
    exact hq.exists_replies_eq hclosed more
  · exact (hq.call .parse).answers_of_isAtEnd (isAtEnd_of_parse_eq_ok he)

end Parser

end LoxCalc
