import LoxCalc.Proofs.Expr.Ahead
import Mathlib.Order.Bounds.Basic

/-!
# Statement boundaries

A statement can end in front of an end of input, in front of a word that starts one, and behind a
semicolon. Synchronizing moves to the first such place that is further on. Main statement:
`synchronize_boundary`, no boundary is jumped over, and a loop that reads and synchronizes comes to
the end of input, since each of its rounds starts further on than the one before.
-/

namespace LoxCalc

namespace Parser

open Grammar Token

/-- Whether a statement can end in front of a place. -/
def IsBoundary (tokens : List Token) (place : Nat) : Prop :=
  ∃ t, tokens[place]? = some t ∧ (t.isEnd ∨ t.kind.startsStatement ∨
    ∃ previous, tokens[place - 1]? = some previous ∧ previous.kind = .symbol .semicolon)

section Boundary

variable {all after : List Token} {previous t : Token} {place : Nat}

theorem isBoundary_iff (h : all.drop place = previous :: t :: after) :
    IsBoundary all (place + 1) ↔
      t.isEnd ∨ t.kind.startsStatement ∨ previous.kind = .symbol .semicolon := by
  have hprevious : all[place]? = some previous := by
    rw [← List.head?_drop, h]
    rfl
  have ht : all[place + 1]? = some t := by
    rw [← List.head?_drop, ← List.drop_drop, h]
    rfl
  simp [IsBoundary, hprevious, ht]

/-- Moving to where the next statement can start goes to the first boundary. -/
theorem exists_boundary_eq (tokens : List Token) (h : all.drop place = previous :: tokens)
    (hend : HasEnd tokens) : ∃ j, all.drop j = boundary previous tokens ∧
      IsLeast {j | place < j ∧ IsBoundary all j} j := by
  induction tokens generalizing previous place with
  | nil =>
    obtain ⟨t, after, hcons⟩ := hend.exists_cons
    cases hcons
  | cons t after ih =>
    have hplace : all.drop (place + 1) = t :: after := by
      rw [← List.drop_drop, h]
      rfl
    have hiff := isBoundary_iff h
    by_cases hstop : t.isEnd || previous.kind = .symbol .semicolon || t.kind.startsStatement
    · refine ⟨place + 1, ?_, ⟨Nat.lt_succ_self place, hiff.2 ?_⟩, fun j hj => hj.1⟩
      · rw [boundary, if_pos hstop, hplace]
      · simp only [Bool.or_eq_true, decide_eq_true_eq] at hstop
        tauto
    · have hnot : ¬IsBoundary all (place + 1) := by
        rw [hiff]
        simp only [Bool.or_eq_true, decide_eq_true_eq] at hstop
        tauto
      have hcontinues : ¬t.isEnd := fun ht => hnot (hiff.2 (.inl ht))
      obtain ⟨j, hdrop, ⟨hlt, hboundary⟩, hleast⟩ := ih hplace (hend.tail hcontinues)
      refine ⟨j, ?_, ⟨Nat.lt_of_succ_lt hlt, hboundary⟩, fun i hi => ?_⟩
      · rw [boundary, if_neg hstop, hdrop]
      · -- the next place is no boundary, so every other one is behind it
        have hne : place + 1 ≠ i := fun heq => hnot (heq ▸ hi.2)
        exact hleast ⟨Nat.lt_of_le_of_ne hi.1 hne, hi.2⟩

end Boundary

/-- Away from the end of input, synchronizing moves to the first boundary further on. -/
theorem Guarded.exists_synchronize_eq {p : Parser} (h : p.Guarded) (hend : ¬p.isAtEnd) :
    ∃ j, p.synchronize = { p with position := j } ∧
      IsLeast {j | p.position < j ∧ IsBoundary p.tokens j} j := by
  obtain ⟨t, after, hup⟩ := h.hasEnd_upcoming.exists_cons
  have ht : ¬t.isEnd := isAtEnd_of_upcoming hup ▸ hend
  have hafter : HasEnd after := (hup ▸ h.hasEnd_upcoming).tail ht
  obtain ⟨j, hdrop, hleast⟩ := exists_boundary_eq after hup hafter
  obtain ⟨u, behind, hcons⟩ := (hafter.passes (passes_boundary t after)).exists_cons
  refine ⟨j, ?_, hleast⟩
  rw [synchronize_of_upcoming hup ht, moveTo_of_drop hdrop (by simp [hcons])]

/-! ### The loop -/

theorem length_upcoming_synchronize_lt {p : Parser} (h : ¬p.isAtEnd) :
    p.synchronize.upcoming.length < p.upcoming.length := by
  cases hup : p.upcoming with
  | nil =>
    rw [isAtEnd, current_eq, hup] at h
    exact absurd rfl h
  | cons t after =>
    have ht : ¬t.isEnd := isAtEnd_of_upcoming hup ▸ h
    have hpass := passes_boundary t after
    rw [synchronize_of_upcoming hup ht, upcoming_moveTo p (hup ▸ (hpass.cons ht).suffix)]
    exact Nat.lt_succ_of_le hpass.suffix.length_le

theorem length_upcoming_parse_le (p : Parser) : p.parse.2.upcoming.length ≤ p.upcoming.length := by
  obtain ⟨rest, hpass, heq⟩ := p.parse_eq_moveTo
  rw [heq, upcoming_moveTo p hpass.suffix]
  exact hpass.suffix.length_le

/-- Reads and, after a fault, synchronizes, until the parser is at the end of input. Whether it is
there is looked at after each reading; to look after synchronizing too could only save a round. -/
def recover (p : Parser) : List Attempt × Parser :=
  match _h : p.parse with
  | (.ok _, q) => ([p.attempt], q)
  | (.error _, q) =>
    if _hend : q.isAtEnd then ([p.attempt], q)
    else
      let (more, last) := recover q.synchronize
      (p.attempt :: more, last)
  termination_by p.upcoming.length
  decreasing_by
    have hle := p.length_upcoming_parse_le
    rw [_h] at hle
    exact (length_upcoming_synchronize_lt _hend).trans_le hle

theorem recover_of_isAtEnd {p : Parser} (h : p.parse.2.isAtEnd) :
    p.recover = ([p.attempt], p.parse.2) := by
  rw [recover]
  split
  next hparse => rw [hparse]
  next hparse =>
    rw [hparse] at h ⊢
    exact dif_pos h

theorem recover_of_not_isAtEnd {p : Parser} (h : ¬p.parse.2.isAtEnd) :
    p.recover =
      (p.attempt :: p.parse.2.synchronize.recover.1, p.parse.2.synchronize.recover.2) := by
  rw [recover]
  split
  next e q hparse => exact absurd (isAtEnd_of_parse_eq_ok (congrArg Prod.fst hparse)) h
  next fault q hparse =>
    rw [hparse] at h ⊢
    exact dif_neg h

/-- The loop ends at the end of input. Every round starts where the parser stands or further on, and
further on than the round before, so there are no more rounds than places up to the end. -/
theorem Guarded.recover_spec {p : Parser} (h : p.Guarded) :
    p.recover.2.isAtEnd ∧ p.position + p.recover.1.length ≤ (beforeEnd p.tokens).length + 1 ∧
      (∀ a ∈ p.recover.1, p.position ≤ a.start) ∧
      p.recover.1.Pairwise fun a b => a.start < b.start := by
  induction hn : p.upcoming.length using Nat.strongRecOn generalizing p with
  | ind n ih =>
    by_cases hend : p.parse.2.isAtEnd
    · have hle := h.position_le
      rw [recover_of_isAtEnd hend]
      refine ⟨hend, by simpa using hle, ?_, List.pairwise_singleton _ _⟩
      intro a ha
      rw [List.mem_singleton.1 ha]
      exact Nat.le_refl _
    · have hparse : p.parse.2.Guarded := h.call .parse
      have hguarded : p.parse.2.synchronize.Guarded := hparse.call .synchronize
      obtain ⟨j, hj, ⟨hlt, -⟩, -⟩ := hparse.exists_synchronize_eq hend
      have hposition : p.position < p.parse.2.synchronize.position := by
        rw [hj]
        exact (h.position_le_afterCalls [.parse]).trans_lt hlt
      have htokens : p.parse.2.synchronize.tokens = p.tokens :=
        h.tokens_afterCalls [.parse, .synchronize]
      have hshorter := (length_upcoming_synchronize_lt hend).trans_le p.length_upcoming_parse_le
      obtain ⟨hlast, hlength, hstart, hpairwise⟩ := ih _ (hn ▸ hshorter) hguarded rfl
      rw [recover_of_not_isAtEnd hend]
      refine ⟨hlast, ?_, ?_, ?_⟩
      · rw [htokens] at hlength
        rw [List.length_cons]
        omega
      · intro a ha
        rcases List.mem_cons.1 ha with rfl | ha
        · exact Nat.le_refl _
        · exact hposition.le.trans (hstart a ha)
      · exact List.pairwise_cons.2 ⟨fun a ha => hposition.trans_le (hstart a ha), hpairwise⟩

/-- Synchronizing moves to the first boundary. A parser stands at or before the first end of input,
whatever was called. At that end it stays where it is; anywhere else it moves on, to the first place
further on at which a statement can end. So the loop that reads and synchronizes ends at the end of
input, with at most one round more than there are tokens before it, and each round starts further on
than the one before. -/
theorem synchronize_boundary :
    (∀ tokens calls, ((ofTokens tokens).afterCalls calls).Guarded) ∧
    (∀ p : Parser, p.Guarded → (p.isAtEnd → p.synchronize = p) ∧
      (¬p.isAtEnd → ∃ j, p.synchronize = { p with position := j } ∧
        IsLeast {j | p.position < j ∧ IsBoundary p.tokens j} j)) ∧
    ∀ tokens, let run := (ofTokens tokens).recover
      run.2.isAtEnd ∧ run.1.length ≤ (beforeEnd tokens).length + 1 ∧
        run.1.Pairwise fun a b => a.start < b.start := by
  refine ⟨fun tokens calls => (guarded_ofTokens tokens).afterCalls calls, fun p hp => ?_,
    fun tokens => ?_⟩
  · exact ⟨synchronize_of_isAtEnd, hp.exists_synchronize_eq⟩
  · obtain ⟨hend, hlength, -, hpairwise⟩ := (guarded_ofTokens tokens).recover_spec
    refine ⟨hend, ?_, hpairwise⟩
    have htokens : beforeEnd (ofTokens tokens).tokens = beforeEnd tokens := beforeEnd_closed tokens
    have hzero : (ofTokens tokens).position = 0 := rfl
    rwa [htokens, hzero, Nat.zero_add] at hlength

/-- A semicolon alone takes two rounds: one stops in front of it, and one at the end of input. -/
example : (ofTokens [Segment.bare.semicolon]).recover.1.length = 2 := by decide +kernel

end Parser

end LoxCalc
