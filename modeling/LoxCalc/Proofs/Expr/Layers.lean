import LoxCalc.Proofs.Expr.Position
import Mathlib.Data.List.Forall2

/-!
# Layers of a tree

A tree is well layered if every operator stands on operands that bind as tightly as its place asks:
the left operand of a binary operator may be of the same level, the right one has to be tighter, and
anything may stand in parentheses. `Expr.flatten` writes a tree out. Main statement:
`parse_ofTokens_iff`, a parser reads exactly the well-layered tree that its tokens write out.
-/

namespace LoxCalc

open Token (beforeEnd)

/-- A token of a tree that is written out. Operators are part of the tree as they are; of all other
tokens only the meaning is. -/
inductive Mark
  | operator (op : Token)
  | plain (data : Token.Data)

/-- Whether a token can stand for a mark. -/
def Mark.Fits : Mark → Token → Prop
  | operator op, t => t = op
  | plain data, t => t.data = data

namespace Expr

/-- A tree written out from left to right. -/
def flatten : Expr → List Mark
  | literal value => [.plain value.literalData]
  | grouping inner =>
    .plain (.symbol .leftParen) :: (inner.flatten ++ [.plain (.symbol .rightParen)])
  | unary op operand => .operator op :: operand.flatten
  | binary left op right => left.flatten ++ .operator op :: right.flatten

/-- Whether some tokens write a tree out. -/
def SpelledBy (e : Expr) (tokens : List Token) : Prop := List.Forall₂ Mark.Fits e.flatten tokens

/-- The well-layered trees of a level. -/
inductive Layered : Level → Expr → Prop
  | literal (value : Value) : Layered .primary (.literal value)
  | grouping {l : Level} {inner : Expr} (layered : Layered l inner) :
      Layered .primary (.grouping inner)
  | unary {l : Level} {op : Token} {operand : Expr} (isUnary : op.kind.isUnaryOperator)
      (layered : Layered l operand) (le : l.looseness ≤ Level.unary.looseness) :
      Layered .unary (.unary op operand)
  | binary {l leftLevel rightLevel : Level} {left right : Expr} {op : Token}
      (takes : l.takes op.kind)
      (left_layered : Layered leftLevel left) (left_le : leftLevel.looseness ≤ l.looseness)
      (right_layered : Layered rightLevel right) (right_lt : rightLevel.looseness < l.looseness) :
      Layered l (.binary left op right)

/-- Whether a tree is well layered. -/
def WellLayered (e : Expr) : Prop := ∃ l, Layered l e

/-! ### Writing out -/

section SpelledBy

variable {value : Value} {e left right : Expr} {op : Token} {tokens : List Token}

theorem forall₂_append_fits {xs ys : List Mark} :
    List.Forall₂ Mark.Fits (xs ++ ys) tokens ↔ ∃ before after,
      List.Forall₂ Mark.Fits xs before ∧ List.Forall₂ Mark.Fits ys after ∧
        tokens = before ++ after := by
  constructor
  · intro h
    induction xs generalizing tokens with
    | nil => exact ⟨[], tokens, .nil, h, rfl⟩
    | cons x xs ih =>
      obtain ⟨t, rest, ht, hrest, rfl⟩ := List.forall₂_cons_left_iff.1 h
      obtain ⟨before, after, hx, hy, rfl⟩ := ih hrest
      exact ⟨t :: before, after, .cons ht hx, hy, rfl⟩
  · rintro ⟨before, after, hx, hy, rfl⟩
    exact List.rel_append hx hy

theorem spelledBy_literal : (literal value).SpelledBy tokens ↔
    ∃ t, t.data = value.literalData ∧ tokens = [t] := by
  simp [SpelledBy, flatten, List.forall₂_cons_left_iff, Mark.Fits]

theorem spelledBy_unary : (unary op e).SpelledBy tokens ↔
    ∃ after, e.SpelledBy after ∧ tokens = op :: after := by
  simp [SpelledBy, flatten, List.forall₂_cons_left_iff, Mark.Fits]

theorem spelledBy_binary : (binary left op right).SpelledBy tokens ↔
    ∃ before after, left.SpelledBy before ∧ right.SpelledBy after ∧
      tokens = before ++ op :: after := by
  simp only [SpelledBy, flatten, forall₂_append_fits, List.forall₂_cons_left_iff, Mark.Fits]
  constructor
  · rintro ⟨before, _, hleft, ⟨_, after, rfl, hright, rfl⟩, rfl⟩
    exact ⟨before, after, hleft, hright, rfl⟩
  · rintro ⟨before, after, hleft, hright, rfl⟩
    exact ⟨before, op :: after, hleft, ⟨op, after, rfl, hright, rfl⟩, rfl⟩

theorem spelledBy_grouping : (grouping e).SpelledBy tokens ↔
    ∃ opening inner closing, opening.data = .symbol .leftParen ∧ e.SpelledBy inner ∧
      closing.data = .symbol .rightParen ∧ tokens = opening :: (inner ++ [closing]) := by
  simp only [SpelledBy, flatten, List.forall₂_cons_left_iff, forall₂_append_fits, Mark.Fits,
    List.forall₂_nil_left_iff]
  constructor
  · rintro ⟨opening, _, ho, ⟨inner, _, hinner, ⟨closing, _, hc, rfl, rfl⟩, rfl⟩, rfl⟩
    exact ⟨opening, inner, closing, ho, hinner, hc, rfl⟩
  · rintro ⟨opening, inner, closing, ho, hinner, hc, rfl⟩
    exact ⟨opening, _, ho, ⟨inner, _, hinner, ⟨closing, _, hc, rfl, rfl⟩, rfl⟩, rfl⟩

end SpelledBy

end Expr

namespace Grammar

open LoxCalc.Expr (Layered)

/-! ### What is read is layered -/

mutual

theorem Reads.layered {l tokens e rest} : Reads l tokens e rest →
    (∃ m, m.looseness ≤ l.looseness ∧ Layered m e) ∧
      ∃ read, tokens = read ++ rest ∧ e.SpelledBy read
  | .chain hl left more => by
    obtain ⟨⟨m, hm, hfirst⟩, read, rfl, hspelled⟩ := left.layered
    have htighter := Level.looseness_tighter_add_one (Nat.zero_lt_of_lt hl)
    obtain ⟨hlayered, read', hrest, hspelled'⟩ := more.layered ⟨m, by omega, hfirst⟩
    exact ⟨hlayered, read ++ read', by rw [hrest, List.append_assoc], hspelled' _ hspelled⟩
  | .unary starts operand => by
    obtain ⟨⟨m, hm, hlayered⟩, read, rfl, hspelled⟩ := operand.layered
    have isUnary := Token.Kind.isUnaryOperator_iff.2 starts
    exact ⟨⟨.unary, le_rfl, .unary isUnary hlayered hm⟩, _ :: read, rfl,
      Expr.spelledBy_unary.2 ⟨read, hspelled, rfl⟩⟩
  | .operand primary => by
    obtain ⟨⟨m, hm, hlayered⟩, hspelled⟩ := primary.layered
    exact ⟨⟨m, hm.trans (by decide), hlayered⟩, hspelled⟩
  | .literal (t := t) value_eq =>
    ⟨⟨.primary, le_rfl, .literal _⟩, [t], rfl,
      Expr.spelledBy_literal.2 ⟨t, Value.ofToken?_eq_some_iff.1 value_eq, rfl⟩⟩
  | .grouping opens inner closes => by
    obtain ⟨⟨m, -, hlayered⟩, read, hread, hspelled⟩ := inner.layered
    refine ⟨⟨.primary, le_rfl, .grouping hlayered⟩, _ :: (read ++ [_]), ?_,
      Expr.spelledBy_grouping.2 ⟨_, read, _, Token.kind_eq_symbol_iff.1 opens, hspelled,
        Token.kind_eq_symbol_iff.1 closes, rfl⟩⟩
    rw [hread, List.cons_append, List.append_assoc, List.singleton_append]

theorem Chains.layered {l left tokens e rest} : Chains l left tokens e rest →
    (∃ m, m.looseness ≤ l.looseness ∧ Layered m left) →
    (∃ m, m.looseness ≤ l.looseness ∧ Layered m e) ∧
      ∃ read, tokens = read ++ rest ∧
        ∀ before, left.SpelledBy before → e.SpelledBy (before ++ read)
  | .done _, hleft => ⟨hleft, [], rfl, fun before h => by rwa [List.append_nil]⟩
  | .more takes right more, ⟨m, hm, hleft⟩ => by
    obtain ⟨⟨n, hn, hright⟩, read, rfl, hspelled⟩ := right.layered
    have hl := Level.one_lt_looseness_of_takes takes
    have htighter := Level.looseness_tighter_add_one (Nat.zero_lt_of_lt hl)
    obtain ⟨hlayered, read', hrest, hspelled'⟩ :=
      more.layered ⟨_, le_rfl, .binary takes hleft hm hright (by omega)⟩
    refine ⟨hlayered, _ :: (read ++ read'),
      by rw [hrest, List.cons_append, List.append_assoc], fun before hbefore => ?_⟩
    have := hspelled' _ (Expr.spelledBy_binary.2 ⟨before, read, hbefore, hspelled, rfl⟩)
    rwa [List.append_assoc, List.cons_append] at this

end

/-! ### What is layered is read -/

/-- Whether no operator of a level or of a tighter one comes first. -/
def EndsLevel (l : Level) (rest : List Token) : Prop :=
  ∀ t ∈ rest.head?, ∀ m : Level, m.looseness ≤ l.looseness → ¬m.takes t.kind

theorem EndsLevel.mono {l m : Level} {rest : List Token} (h : EndsLevel l rest)
    (hle : m.looseness ≤ l.looseness) : EndsLevel m rest :=
  fun t ht k hk => h t ht k (hk.trans hle)

theorem endsLevel_of_not_takes {l : Level} {t : Token} (h : ∀ m : Level, ¬m.takes t.kind)
    (rest : List Token) : EndsLevel l (t :: rest) := by
  rintro u ⟨⟩ m -
  exact h m

/-- Behind an operator's left operand comes the operator, which ends all tighter levels. -/
theorem endsLevel_of_takes {l m : Level} {op : Token} (h : l.takes op.kind)
    (hlt : m.looseness < l.looseness) (rest : List Token) : EndsLevel m (op :: rest) := by
  rintro u ⟨⟩ k hk htakes
  have := Level.takes_unique h htakes
  subst this
  omega

/-- What a level reads is read by every looser one that ends there. -/
theorem Reads.loosen {l m : Level} {tokens rest : List Token} {e : Expr}
    (h : Reads m tokens e rest) (hle : m.looseness ≤ l.looseness) (hends : EndsLevel l rest) :
    Reads l tokens e rest := by
  induction hn : l.looseness generalizing l with
  | zero => rwa [Level.looseness_injective (hn.trans (Nat.le_zero.1 (hn ▸ hle)).symm)]
  | succ n ih =>
    rcases hle.eq_or_lt with heq | hlt
    · rwa [← Level.looseness_injective heq]
    · have htighter := Level.looseness_tighter_add_one (Nat.zero_lt_of_lt hlt)
      have hread : Reads l.tighter tokens e rest :=
        ih (by omega) (hends.mono (by omega)) (by omega)
      by_cases hl : 1 < l.looseness
      · exact .chain hl hread (.done fun t ht => hends t ht l le_rfl)
      · have hunary : l = .unary := Level.looseness_injective (by
          change l.looseness = 1
          omega)
        subst hunary
        exact .operand hread

/-- Whether a level reads a tree from some tokens if nothing behind them belongs to it. -/
def ReadsAlone (l : Level) (e : Expr) (read : List Token) : Prop :=
  ∀ rest, EndsLevel l rest → Reads l (read ++ rest) e rest

/-- Whether a level reads a tree from some tokens as the left part of a chain. -/
def ReadsBefore (l : Level) (e : Expr) (read : List Token) : Prop :=
  ∀ rest e' rest', EndsLevel l.tighter rest → Chains l e rest e' rest' →
    Reads l (read ++ rest) e' rest'

section

variable {l m : Level} {e : Expr} {read : List Token}

theorem ReadsAlone.before (h : ReadsAlone m e read) (hl : 1 < l.looseness)
    (hlt : m.looseness < l.looseness) : ReadsBefore l e read := by
  intro rest e' rest' hends hchains
  have htighter := Level.looseness_tighter_add_one (Nat.zero_lt_of_lt hl)
  have hle : m.looseness ≤ l.tighter.looseness := by omega
  exact .chain hl ((h rest (hends.mono hle)).loosen hle hends) hchains

theorem ReadsBefore.alone (h : ReadsBefore l e read) (hl : 0 < l.looseness) :
    ReadsAlone l e read := by
  intro rest hends
  have htighter := Level.looseness_tighter_add_one hl
  exact h rest e rest (hends.mono (by omega)) (.done fun t ht => hends t ht l le_rfl)

end

/-- A well-layered tree is read from the tokens that it is spelled by. The left operand of an
operator of the same level is no tree that the level would read alone, since the operator behind it
goes on with the chain; so both statements are proved together. -/
theorem readsAlone_of_layered {l : Level} {e : Expr} (h : Layered l e) {read : List Token}
    (hspelled : e.SpelledBy read) :
    ReadsAlone l e read ∧ (1 < l.looseness → ReadsBefore l e read) := by
  induction h generalizing read with
  | literal value =>
    obtain ⟨t, ht, rfl⟩ := Expr.spelledBy_literal.1 hspelled
    refine ⟨fun rest _ => .literal (Value.ofToken?_eq_some_iff.2 ht), fun hl => ?_⟩
    simp [Level.looseness] at hl
  | grouping layered ih =>
    obtain ⟨opening, inner, closing, hopens, hinner, hcloses, rfl⟩ :=
      Expr.spelledBy_grouping.1 hspelled
    refine ⟨fun rest _ => ?_, fun hl => by simp [Level.looseness] at hl⟩
    have hcloses := Token.kind_eq_symbol_iff.2 hcloses
    have hends : ∀ l : Level, EndsLevel l (closing :: rest) :=
      fun l => endsLevel_of_not_takes (fun m => by cases m <;> simp [hcloses, Level.takes]) rest
    have hread : Reads .equality _ _ _ :=
      ((ih hinner).1 _ (hends _)).loosen (Level.looseness_le_equality _) (hends _)
    rw [List.cons_append, List.append_assoc]
    exact .grouping (Token.kind_eq_symbol_iff.2 hopens) hread hcloses
  | unary isUnary layered hle ih =>
    obtain ⟨after, hafter, rfl⟩ := Expr.spelledBy_unary.1 hspelled
    refine ⟨fun rest hends => ?_, fun hl => by simp [Level.looseness] at hl⟩
    exact .unary (Token.Kind.isUnaryOperator_iff.1 isUnary)
      (((ih hafter).1 rest (hends.mono hle)).loosen hle hends)
  | @binary l leftLevel rightLevel left right op takes _ left_le _ right_lt ihl ihr =>
    obtain ⟨before, after, hbefore, hafter, rfl⟩ := Expr.spelledBy_binary.1 hspelled
    have hl := Level.one_lt_looseness_of_takes takes
    have htighter := Level.looseness_tighter_add_one (Nat.zero_lt_of_lt hl)
    obtain ⟨hleft, hleft'⟩ := ihl hbefore
    have hbefore : ReadsBefore l left before := by
      rcases left_le.eq_or_lt with heq | hlt
      · obtain rfl := Level.looseness_injective heq
        exact hleft' hl
      · exact hleft.before hl hlt
    have hbinary : ReadsBefore l (.binary left op right) (before ++ op :: after) := by
      intro rest e' rest' hends hchains
      have hle : rightLevel.looseness ≤ l.tighter.looseness := by omega
      have hright := ((ihr hafter).1 rest (hends.mono hle)).loosen hle hends
      rw [List.append_assoc]
      exact hbefore _ e' rest' (endsLevel_of_takes takes (by omega) _)
        (.more takes hright hchains)
    exact ⟨hbinary.alone (Nat.zero_lt_of_lt hl), fun _ => hbinary⟩

/-- The grammar reads exactly the well-layered trees that the tokens before a stop spell. -/
theorem reads_equality_iff {read rest : List Token} {e : Expr} (hends : EndsLevel .equality rest) :
    Reads .equality (read ++ rest) e rest ↔ e.WellLayered ∧ e.SpelledBy read := by
  constructor
  · intro h
    obtain ⟨⟨m, -, hlayered⟩, read', hread, hspelled⟩ := h.layered
    exact ⟨⟨m, hlayered⟩, List.append_cancel_right hread ▸ hspelled⟩
  · rintro ⟨⟨m, hlayered⟩, hspelled⟩
    have hle := Level.looseness_le_equality m
    exact ((readsAlone_of_layered hlayered hspelled).1 rest (hends.mono hle)).loosen hle hends

end Grammar

namespace Parser

open Grammar

theorem endsLevel_of_isEnd {l : Level} {t : Token} (h : t.isEnd) (rest : List Token) :
    EndsLevel l (t :: rest) :=
  endsLevel_of_not_takes (fun _ hm => Token.not_isEnd_of_takes hm h) rest

theorem parse_ofTokens_eq_ok_iff {tokens : List Token} {e : Expr} {p : Parser} :
    (ofTokens tokens).parse = (.ok e, p) ↔ (e.WellLayered ∧ e.SpelledBy (beforeEnd tokens)) ∧
      p = ⟨closed tokens, (beforeEnd tokens).length⟩ := by
  obtain ⟨t, behind, ht, hclosed⟩ := closed_eq tokens
  have hreads : Reads .equality (beforeEnd tokens ++ t :: behind) e (t :: behind) ↔ _ :=
    reads_equality_iff (endsLevel_of_isEnd ht behind)
  have hmove : (ofTokens tokens).moveTo (t :: behind) =
      ⟨closed tokens, (beforeEnd tokens).length⟩ := by
    have := position_moveTo (p := ofTokens tokens) hclosed (Nat.zero_le _)
    simpa [moveTo, ofTokens] using this
  rw [parse_eq_ok_iff, ← hreads, ← hclosed]
  constructor
  · rintro ⟨rest, h, hend, rfl⟩
    -- what was read is no end of input and an end follows it, so the cut is the one at `t`
    obtain ⟨read, hread, hrest⟩ := h.passes
    have hbefore := Token.eq_beforeEnd_of_append hrest hread hend
    rw [upcoming_ofTokens, beforeEnd_closed] at hbefore
    rw [upcoming_ofTokens, hclosed, hbefore] at hrest
    rw [← List.append_cancel_left hrest] at h ⊢
    exact ⟨h, hmove⟩
  · rintro ⟨h, rfl⟩
    exact ⟨t :: behind, h, by simpa using ht, hmove.symm⟩

/-- A parser at the start of its tokens reads a tree exactly if the tree is well layered and written
out by the tokens before the first end of input. There is at most one such tree, and the parser
then stands at that end. -/
theorem parse_ofTokens_iff (tokens : List Token) :
    (∀ e, (∃ p, (ofTokens tokens).parse = (.ok e, p)) ↔
      e.WellLayered ∧ e.SpelledBy (beforeEnd tokens)) ∧
    (∀ e e' : Expr, e.WellLayered ∧ e.SpelledBy (beforeEnd tokens) →
      e'.WellLayered ∧ e'.SpelledBy (beforeEnd tokens) → e = e') ∧
    ∀ e p, (ofTokens tokens).parse = (.ok e, p) →
      p = ⟨closed tokens, (beforeEnd tokens).length⟩ ∧ p.isAtEnd := by
  refine ⟨fun e => ?_, fun e e' he he' => ?_, fun e p h => ?_⟩
  · simp [parse_ofTokens_eq_ok_iff]
  · have h := parse_ofTokens_eq_ok_iff.2 ⟨he, rfl⟩
    have h' := parse_ofTokens_eq_ok_iff.2 ⟨he', rfl⟩
    exact Except.ok.inj (congrArg Prod.fst (h.symm.trans h'))
  · obtain ⟨rest, hr, hend, rfl⟩ := parse_eq_ok_iff.1 h
    exact ⟨(parse_ofTokens_eq_ok_iff.1 h).2, (isAtEnd_moveTo _ hr.passes.suffix).2 hend⟩

end Parser

end LoxCalc
