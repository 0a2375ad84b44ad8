import LoxCalc.Expr.Parser
import LoxCalc.Proofs.Expr.Reading
import Mathlib.Data.List.TakeWhile

/-!
# Positions of a parser

A parser made from a list of tokens stands at or before the first end of input, and no call moves
it past that. Main statements: `parse_cases`, what `parse` does by the rules of the grammar, and
`Guarded.afterCalls`, where a parser can stand.
-/

namespace LoxCalc

namespace Token

/-- The tokens before the first end of input. -/
def beforeEnd (tokens : List Token) : List Token := tokens.takeWhile (!·.isEnd)

theorem not_isEnd_of_mem_beforeEnd {t : Token} {tokens : List Token} (h : t ∈ beforeEnd tokens) :
    ¬t.isEnd := by
  simpa using List.mem_takeWhile_imp h

theorem beforeEnd_of_forall {tokens : List Token} (h : ∀ t ∈ tokens, ¬t.isEnd) :
    beforeEnd tokens = tokens := by
  simpa [beforeEnd] using h

theorem beforeEnd_append {read : List Token} (hread : ∀ t ∈ read, ¬t.isEnd) (rest : List Token) :
    beforeEnd (read ++ rest) = read ++ beforeEnd rest :=
  List.takeWhile_append_of_pos (by simpa using hread)

/-- Tokens that are no end of input are those before the first end if one follows them. -/
theorem eq_beforeEnd_of_append {read rest tokens : List Token} (h : tokens = read ++ rest)
    (hread : ∀ t ∈ read, ¬t.isEnd) (hrest : ∀ t ∈ rest.head?, t.isEnd) :
    read = beforeEnd tokens := by
  rw [h, beforeEnd_append hread]
  cases rest with
  | nil => exact (List.append_nil read).symm
  | cons t rest => simp [beforeEnd, hrest t rfl]

theorem beforeEnd_cons_of_isEnd {t : Token} (ht : t.isEnd) (rest : List Token) :
    beforeEnd (t :: rest) = [] := by
  simp [beforeEnd, ht]

/-- A list with an end of input is cut by the first one. -/
theorem exists_eq_beforeEnd_append {tokens : List Token} (h : ∃ t ∈ tokens, t.isEnd) :
    ∃ t rest, t.isEnd ∧ tokens = beforeEnd tokens ++ t :: rest := by
  induction tokens with
  | nil => simp at h
  | cons t rest ih =>
    by_cases ht : t.isEnd
    · exact ⟨t, rest, ht, by rw [beforeEnd_cons_of_isEnd ht, List.nil_append]⟩
    · obtain ⟨u, rest', hu, hrest⟩ := ih (by simpa [ht] using h)
      refine ⟨u, rest', hu, ?_⟩
      have hcons : beforeEnd (t :: rest) = t :: beforeEnd rest := by simp [beforeEnd, ht]
      rw [hcons, List.cons_append, ← hrest]

end Token

namespace Parser

open Grammar Token

/-- A list of tokens gets an end of input, and what stands before the first one stays. -/
theorem closed_eq (tokens : List Token) :
    ∃ t rest, t.isEnd ∧ closed tokens = beforeEnd tokens ++ t :: rest := by
  unfold closed
  split
  next h =>
    rw [List.getLast?_eq_none_iff.1 h]
    exact ⟨.endOn 1, [], rfl, rfl⟩
  next last h =>
    split
    next hend => exact exists_eq_beforeEnd_append ⟨last, List.mem_of_getLast? h, hend⟩
    next =>
      by_cases hany : ∃ t ∈ tokens, t.isEnd
      · obtain ⟨t, rest, ht, heq⟩ := exists_eq_beforeEnd_append hany
        refine ⟨t, rest ++ [.endOn last.line], ht, ?_⟩
        rw [← List.cons_append, ← List.append_assoc, ← heq]
      · refine ⟨.endOn last.line, [], rfl, ?_⟩
        rw [beforeEnd_of_forall fun t ht he => hany ⟨t, ht, he⟩]

theorem beforeEnd_closed (tokens : List Token) : beforeEnd (closed tokens) = beforeEnd tokens := by
  obtain ⟨t, rest, ht, heq⟩ := closed_eq tokens
  rw [heq, beforeEnd_append (fun _ => not_isEnd_of_mem_beforeEnd), beforeEnd_cons_of_isEnd ht,
    List.append_nil]

@[simp] theorem upcoming_ofTokens (tokens : List Token) :
    (ofTokens tokens).upcoming = closed tokens := rfl

/-! ### Moving -/

@[simp] theorem tokens_moveTo (p : Parser) (rest : List Token) :
    (p.moveTo rest).tokens = p.tokens := rfl

theorem current_eq (p : Parser) : p.current = p.upcoming.headD (.endOn 1) := by
  simp [current, upcoming, List.headD_eq_head?_getD, List.head?_drop]

theorem upcoming_moveTo (p : Parser) {rest : List Token} (h : rest <:+ p.upcoming) :
    (p.moveTo rest).upcoming = rest :=
  (List.suffix_iff_eq_drop.1 (h.trans (List.drop_suffix _ _))).symm

theorem position_moveTo {p : Parser} {read rest : List Token} (h : p.upcoming = read ++ rest)
    (hp : p.position ≤ p.tokens.length) : (p.moveTo rest).position = p.position + read.length := by
  have hlen : p.tokens.length - p.position = read.length + rest.length := by
    rw [← List.length_append, ← h, upcoming, List.length_drop]
  simp only [moveTo]
  omega

theorem position_le_moveTo {p : Parser} {rest : List Token} (h : Passes p.upcoming rest)
    (hp : p.position ≤ p.tokens.length) : p.position ≤ (p.moveTo rest).position := by
  obtain ⟨read, -, hup⟩ := h
  rw [position_moveTo hup hp]
  exact Nat.le_add_right _ _

theorem moveTo_upcoming {p : Parser} (hp : p.position ≤ p.tokens.length) :
    p.moveTo p.upcoming = p := by
  have hpos := position_moveTo (List.nil_append p.upcoming).symm hp
  cases p
  simpa [moveTo] using hpos

theorem isAtEnd_moveTo (p : Parser) {rest : List Token} (h : rest <:+ p.upcoming) :
    (p.moveTo rest).isAtEnd ↔ ∀ t ∈ rest.head?, t.isEnd := by
  rw [isAtEnd, current_eq, upcoming_moveTo p h]
  cases rest with
  | nil => simp [endOn, isEnd, kind, Data.kind]
  | cons t rest => simp

theorem isAtEnd_of_upcoming {p : Parser} {t : Token} {after : List Token}
    (h : p.upcoming = t :: after) : p.isAtEnd = t.isEnd := by
  rw [isAtEnd, current_eq, h, List.headD_cons]

theorem synchronize_of_isAtEnd {p : Parser} (h : p.isAtEnd) : p.synchronize = p := by
  rw [synchronize]
  cases hup : p.upcoming with
  | nil => rfl
  | cons t after => exact if_pos (isAtEnd_of_upcoming hup ▸ h)

theorem synchronize_of_upcoming {p : Parser} {t : Token} {after : List Token}
    (h : p.upcoming = t :: after) (ht : ¬t.isEnd) :
    p.synchronize = p.moveTo (boundary t after) := by
  rw [synchronize, h]
  exact if_neg ht

theorem fail_eq (p : Parser) {stop : Stop} (h : stop.rest <:+ p.upcoming) :
    p.fail stop = (.error ⟨stop.cause, stop.rest.headD (.endOn 1)⟩, p.moveTo stop.rest) := by
  rw [fail, current_eq, upcoming_moveTo p h]

/-- What `parse` does, by the rules of the grammar. -/
theorem parse_cases (p : Parser) :
    (∃ e rest, Reads .equality p.upcoming e rest ∧ (∀ t ∈ rest.head?, t.isEnd) ∧
      p.parse = (.ok e, p.moveTo rest)) ∨
    (∃ e rest, Reads .equality p.upcoming e rest ∧ ¬(∀ t ∈ rest.head?, t.isEnd) ∧
      p.parse = p.fail ⟨.expectedEnd, rest⟩) ∨
    (∃ stop, Stops .equality p.upcoming stop ∧ p.parse = p.fail stop) := by
  rw [parse, expression]
  cases hparse : Grammar.parse .equality p.upcoming with
  | error stop => exact .inr (.inr ⟨stop, stops_of_parse hparse, rfl⟩)
  | ok found =>
    have hreads := reads_of_parse hparse
    have hend := isAtEnd_moveTo p hreads.passes.suffix
    by_cases h : ∀ t ∈ found.rest.head?, t.isEnd
    · exact .inl ⟨_, _, hreads, h, if_pos (hend.2 h)⟩
    · exact .inr (.inl ⟨_, _, hreads, h, if_neg (mt hend.1 h)⟩)

theorem parse_eq_ok_iff {p q : Parser} {e : Expr} : p.parse = (.ok e, q) ↔
    ∃ rest, Reads .equality p.upcoming e rest ∧ (∀ t ∈ rest.head?, t.isEnd) ∧
      q = p.moveTo rest := by
  constructor
  · intro h
    rcases p.parse_cases with ⟨e', rest, hr, hend, heq⟩ | ⟨e', rest, -, -, heq⟩ | ⟨stop, -, heq⟩
    · obtain ⟨he, rfl⟩ := Prod.mk.inj (h.symm.trans heq)
      obtain rfl := Except.ok.inj he
      exact ⟨rest, hr, hend, rfl⟩
    · simp [heq, fail] at h
    · simp [heq, fail] at h
  · rintro ⟨rest, hr, hend, rfl⟩
    obtain ⟨found, hparse, rfl, rfl⟩ := hr.parse_eq
    rw [parse, expression, hparse]
    exact if_pos ((isAtEnd_moveTo p hr.passes.suffix).2 hend)

/-! ### Standing before the end -/

/-- A parser stands at or before the first end of input, and there is one. -/
structure Guarded (p : Parser) : Prop where
  has_end : ∃ t ∈ p.tokens, t.isEnd
  position_le : p.position ≤ (beforeEnd p.tokens).length

theorem guarded_ofTokens (tokens : List Token) : (ofTokens tokens).Guarded := by
  obtain ⟨t, rest, ht, heq⟩ := closed_eq tokens
  refine ⟨⟨t, ?_, ht⟩, Nat.zero_le _⟩
  simp [ofTokens, heq]

namespace Guarded

variable {p : Parser}

theorem position_le_length (h : p.Guarded) : p.position ≤ p.tokens.length :=
  h.position_le.trans (List.takeWhile_prefix _).length_le

/-- What is still to come, cut by the first end of input. -/
theorem upcoming_eq (h : p.Guarded) :
    ∃ t rest, t.isEnd ∧ p.upcoming = (beforeEnd p.tokens).drop p.position ++ t :: rest := by
  obtain ⟨t, rest, ht, heq⟩ := exists_eq_beforeEnd_append h.has_end
  refine ⟨t, rest, ht, ?_⟩
  have hdrop := congrArg (List.drop p.position) heq
  rwa [List.drop_append_of_le_length h.position_le] at hdrop

/-- What a parser has still to read does not run out before an end of input. -/
theorem ne_nil_of_passes (h : p.Guarded) {rest : List Token} (hpass : Passes p.upcoming rest) :
    rest ≠ [] := by
  rintro rfl
  obtain ⟨read, hread, hup⟩ := hpass
  obtain ⟨t, behind, ht, heq⟩ := h.upcoming_eq
  -- the end of input would be among the tokens that were read
  refine hread t ?_ ht
  rw [← List.append_nil read, ← hup, heq]
  simp

/-- A parser that moves over tokens that are no end of input stays before the first one. -/
theorem moveTo (h : p.Guarded) {rest : List Token} (hpass : Passes p.upcoming rest) :
    (p.moveTo rest).Guarded := by
  obtain ⟨read, hread, hup⟩ := hpass
  obtain ⟨t, behind, ht, heq⟩ := h.upcoming_eq
  refine ⟨h.has_end, ?_⟩
  rw [position_moveTo hup h.position_le_length, tokens_moveTo]
  have hbefore : beforeEnd p.upcoming = (beforeEnd p.tokens).drop p.position := by
    rw [heq, beforeEnd_append, beforeEnd_cons_of_isEnd ht, List.append_nil]
    exact fun u hu => not_isEnd_of_mem_beforeEnd (List.mem_of_mem_drop hu)
  have hlen := congrArg List.length (hbefore.symm.trans (congrArg beforeEnd hup))
  rw [beforeEnd_append hread, List.length_drop, List.length_append] at hlen
  have := h.position_le
  omega

end Guarded

/-- What can be done with a parser. -/
inductive Call
  | parse
  | synchronize
  deriving DecidableEq

/-- The parser after a call. -/
def call (p : Parser) : Call → Parser
  | .parse => p.parse.2
  | .synchronize => p.synchronize

/-- The parser after some calls, one after another. -/
def afterCalls (p : Parser) (calls : List Call) : Parser := calls.foldl call p

theorem passes_boundary (previous : Token) (tokens : List Token) :
    Passes tokens (boundary previous tokens) := by
  induction tokens generalizing previous with
  | nil => exact Passes.refl []
  | cons t after ih =>
    rw [boundary]
    split
    · exact Passes.refl _
    next h => exact (ih t).cons (by simp at h; simp [h])

/-- Reading moves over tokens that are no end of input. -/
theorem parse_eq_moveTo (p : Parser) :
    ∃ rest, Passes p.upcoming rest ∧ p.parse.2 = p.moveTo rest := by
  rcases p.parse_cases with ⟨e, rest, h, -, heq⟩ | ⟨e, rest, h, -, heq⟩ | ⟨stop, h, heq⟩
  · exact ⟨rest, h.passes, by rw [heq]⟩
  · exact ⟨rest, h.passes, by rw [heq, fail]⟩
  · exact ⟨stop.rest, h.passes, by rw [heq, fail]⟩

/-- Every call moves over tokens that are no end of input. -/
theorem call_eq_moveTo (p : Parser) (hp : p.position ≤ p.tokens.length) (c : Call) :
    ∃ rest, Passes p.upcoming rest ∧ p.call c = p.moveTo rest := by
  cases c with
  | parse => exact p.parse_eq_moveTo
  | synchronize =>
    have hstays : p = p.moveTo p.upcoming := (moveTo_upcoming hp).symm
    by_cases hend : p.isAtEnd
    · exact ⟨p.upcoming, Passes.refl _, (synchronize_of_isAtEnd hend).trans hstays⟩
    · obtain ⟨t, after, hup⟩ := List.exists_cons_of_ne_nil (l := p.upcoming) fun hnil => by
        rw [isAtEnd, current_eq, hnil] at hend
        exact hend rfl
      have ht : ¬t.isEnd := isAtEnd_of_upcoming hup ▸ hend
      exact ⟨_, hup ▸ (passes_boundary t after).cons ht, synchronize_of_upcoming hup ht⟩

theorem Guarded.call {p : Parser} (h : p.Guarded) (c : Call) : (p.call c).Guarded := by
  obtain ⟨rest, hpass, heq⟩ := p.call_eq_moveTo h.position_le_length c
  rw [heq]
  exact h.moveTo hpass

theorem Guarded.afterCalls {p : Parser} (h : p.Guarded) (calls : List Call) :
    (p.afterCalls calls).Guarded := by
  induction calls generalizing p with
  | nil => exact h
  | cons c calls ih => exact ih (h.call c)

end Parser

end LoxCalc
