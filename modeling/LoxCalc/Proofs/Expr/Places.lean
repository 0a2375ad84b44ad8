import LoxCalc.Proofs.Eval.Typing
import LoxCalc.Proofs.Expr.Recovery

/-!
# Places of tokens

Reading and evaluation look at what tokens mean, and never at where they stand or how they are
spelled: that only comes back in the fault. Nor do they look at a token behind an end of input. Main
statements: `Guarded.parse_relabeled` and `eval_mapOperators`, tokens changed without changing what
they mean come to the same, changed in the same way.
-/

namespace LoxCalc

open Grammar (Reads Chains Stop)

variable {f : Token → Token} {g : List Token → List Token}

/-! ### Changing tokens -/

/-- A tree with its operators changed. -/
def Expr.mapOperators (f : Token → Token) : Expr → Expr
  | literal value => literal value
  | grouping inner => grouping (inner.mapOperators f)
  | unary op operand => unary (f op) (operand.mapOperators f)
  | binary left op right => binary (left.mapOperators f) (f op) (right.mapOperators f)

/-- A fault with its token changed. -/
def SyntaxFault.map (f : Token → Token) (fault : SyntaxFault) : SyntaxFault :=
  ⟨fault.cause, f fault.token⟩

/-- A fault with its operator changed. -/
def Eval.Fault.map (f : Token → Token) (fault : Eval.Fault) : Eval.Fault :=
  ⟨fault.cause, f fault.operator⟩

/-- What comes of reading, with tokens changed. -/
def SyntaxFault.mapResult (f : Token → Token) (result : Except SyntaxFault Expr) :
    Except SyntaxFault Expr :=
  (result.mapError (map f)).map (Expr.mapOperators f)

/-- A parser with its tokens changed. -/
def Parser.map (f : Token → Token) (p : Parser) : Parser := ⟨p.tokens.map f, p.position⟩

theorem Expr.mapOperators_id (e : Expr) : e.mapOperators id = e := by
  induction e with
  | literal value => rfl
  | grouping inner ih => rw [mapOperators, ih]
  | unary op operand ih => rw [mapOperators, ih, id]
  | binary left op right ihl ihr => rw [mapOperators, ihl, ihr, id]

theorem SyntaxFault.mapResult_id (result : Except SyntaxFault Expr) :
    mapResult id result = result := by
  cases result with
  | error fault => rfl
  | ok e => exact congrArg Except.ok e.mapOperators_id

theorem Token.kind_map (hf : ∀ t, (f t).data = t.data) (t : Token) : (f t).kind = t.kind :=
  congrArg Token.Data.kind (hf t)

/-- Whether a change of lists of tokens changes every token up to the first end of input by a
function that keeps what the token means. Behind that end it can do anything. -/
structure Token.Relabels (f : Token → Token) (g : List Token → List Token) : Prop where
  data_eq : ∀ t, (f t).data = t.data
  cons_eq : ∀ t rest, ¬t.isEnd → g (t :: rest) = f t :: g rest
  head?_eq : ∀ tokens, (g tokens).head? = tokens.head?.map f

theorem Token.relabels_map (hf : ∀ t, (f t).data = t.data) : Relabels f (List.map f) :=
  ⟨hf, fun _ _ _ => rfl, fun _ => List.head?_map⟩

namespace Token.Relabels

theorem kind_eq (h : Relabels f g) (t : Token) : (f t).kind = t.kind := kind_map h.data_eq t

theorem isEnd_eq (h : Relabels f g) (t : Token) : (f t).isEnd = t.isEnd := by
  rw [isEnd, isEnd, h.kind_eq]

theorem nil_eq (h : Relabels f g) : g [] = [] := List.head?_eq_none_iff.1 (h.head?_eq [])

/-- What stands first in a changed list is what stood there, changed. -/
theorem exists_cons_eq (h : Relabels f g) (t : Token) (rest : List Token) :
    ∃ after, g (t :: rest) = f t :: after :=
  List.head?_eq_some_iff.1 (h.head?_eq (t :: rest))

/-- What holds of what a first token means holds in a changed list. -/
theorem forall_head? (h : Relabels f g) {q : Token → Prop} (hq : ∀ t, q t → q (f t))
    {tokens : List Token} (hhead : ∀ t ∈ tokens.head?, q t) : ∀ t ∈ (g tokens).head?, q t := by
  intro u hu
  rw [h.head?_eq, Option.mem_def, Option.map_eq_some_iff] at hu
  obtain ⟨t, ht, rfl⟩ := hu
  exact hq t (hhead t ht)

end Token.Relabels

/-! ### Reading -/

namespace Grammar

mutual

theorem Reads.relabeled (h : Token.Relabels f g) {l tokens e rest} : Reads l tokens e rest →
    Reads l (g tokens) (e.mapOperators f) (g rest)
  | .chain binary left more => .chain binary (left.relabeled h) (more.relabeled h)
  | .unary starts operand => by
    rw [h.cons_eq _ _ (Token.not_isEnd_of_startsUnary starts)]
    exact .unary (by rwa [h.kind_eq]) (operand.relabeled h)
  | .operand primary => .operand (primary.relabeled h)
  | .literal value_eq => by
    have hend := Token.not_isEnd_of_isLiteral (Value.isLiteral_of_ofToken? value_eq)
    rw [h.cons_eq _ _ hend]
    exact .literal (by rwa [h.data_eq])
  | .grouping opens inner closes => by
    have hinner := inner.relabeled h
    rw [h.cons_eq _ _ (Token.not_isEnd_of_symbol closes)] at hinner
    rw [h.cons_eq _ _ (Token.not_isEnd_of_symbol opens)]
    exact .grouping ((h.kind_eq _).trans opens) hinner ((h.kind_eq _).trans closes)

theorem Chains.relabeled (h : Token.Relabels f g) {l left tokens e rest} :
    Chains l left tokens e rest →
      Chains l (left.mapOperators f) (g tokens) (e.mapOperators f) (g rest)
  | .done ends => .done (h.forall_head? (fun t ht => h.kind_eq t ▸ ht) ends)
  | .more takes right_reads more => by
    rw [h.cons_eq _ _ (Token.not_isEnd_of_takes takes)]
    exact .more (by rwa [h.kind_eq]) (right_reads.relabeled h) (more.relabeled h)

end

end Grammar

/-- No counter goes on at an end of input. -/
theorem Counter.step_ne_go_of_isEnd {t : Token} (ht : t.isEnd) (c c' : Counter) :
    c.step t.kind ≠ .go c' := by
  rw [Token.isEnd_iff.1 ht]
  rcases c with ⟨_ | _, _ | d⟩ <;> exact nofun

/-- A counter stops at the same place. -/
theorem Counter.run_relabeled (h : Token.Relabels f g) (c : Counter) (tokens : List Token) :
    c.run (g tokens) =
      ((c.run tokens).mapError fun stop => ⟨stop.cause, g stop.rest⟩).map g := by
  induction tokens generalizing c with
  | nil =>
    rw [h.nil_eq, run]
    split
    · simp [Except.mapError, Except.map, h.nil_eq]
    · simp [Except.mapError, Except.map, h.nil_eq]
  | cons t tokens ih =>
    obtain ⟨after, hafter⟩ := h.exists_cons_eq t tokens
    rw [hafter, run, run, h.kind_eq]
    cases hstep : c.step t.kind with
    | go c' =>
      -- the token is no end of input, so the rest is changed in the same way
      have hend : ¬t.isEnd := fun ht => step_ne_go_of_isEnd ht c c' hstep
      obtain ⟨-, rfl⟩ := List.cons.inj (hafter.symm.trans (h.cons_eq t tokens hend))
      exact ih c'
    | accept => exact congrArg Except.ok hafter.symm
    | refuse cause => exact congrArg (fun rest => Except.error (Stop.mk cause rest)) hafter.symm

namespace Parser

/-- A parser with changed tokens to come reads the same tree, or stops at the same token for the
same cause. -/
theorem Guarded.parse_relabeled (hg : Token.Relabels f g) {p q : Parser} (h : p.Guarded)
    (hq : q.upcoming = g p.upcoming) : ∃ rest, Token.Passes p.upcoming rest ∧
      p.parse.2 = p.moveTo rest ∧
      q.parse = (SyntaxFault.mapResult f p.parse.1, q.moveTo (g rest)) := by
  rcases p.parse_cases_run with ⟨e, rest, -, heq⟩ | ⟨stop, hpass, hrun, -⟩
  · obtain ⟨rest', hreads, hend, hmove⟩ := parse_eq_ok_iff.1 heq
    have hend' : ∀ t ∈ (g rest').head?, t.isEnd :=
      hg.forall_head? (fun t ht => hg.isEnd_eq t ▸ ht) hend
    have hparse : q.parse = (.ok (e.mapOperators f), q.moveTo (g rest')) :=
      parse_eq_ok_iff.2 ⟨_, hq ▸ hreads.relabeled hg, hend', rfl⟩
    refine ⟨rest', hreads.passes, ?_, ?_⟩
    · rw [heq, hmove]
    · rw [hparse, heq]
      rfl
  · obtain ⟨t, after, hstop⟩ := List.exists_cons_of_ne_nil (h.ne_nil_of_passes hpass)
    obtain ⟨after', hafter⟩ := hg.exists_cons_eq t after
    have hrun : Counter.start.run p.upcoming = .error ⟨stop.cause, t :: after⟩ := by
      rw [hrun, ← hstop]
    have hrun' : Counter.start.run q.upcoming = .error ⟨stop.cause, f t :: after'⟩ := by
      rw [hq, Counter.run_relabeled hg, hrun, ← hafter]
      rfl
    refine ⟨t :: after, hstop ▸ hpass, ?_, ?_⟩
    · rw [parse_of_run hrun]
    · rw [parse_of_run hrun, parse_of_run hrun', hafter]
      rfl

theorem upcoming_map (p : Parser) : (p.map f).upcoming = p.upcoming.map f :=
  List.map_drop.symm

theorem moveTo_map (p : Parser) (rest : List Token) :
    (p.map f).moveTo (rest.map f) = (p.moveTo rest).map f := by
  simp [map, moveTo]

theorem Guarded.parse_map (hf : ∀ t, (f t).data = t.data) {p : Parser} (h : p.Guarded) :
    (p.map f).parse = (SyntaxFault.mapResult f p.parse.1, p.parse.2.map f) := by
  obtain ⟨rest, -, hmove, hparse⟩ := h.parse_relabeled (Token.relabels_map hf) (upcoming_map p)
  rw [hparse, hmove, moveTo_map]

end Parser

/-! ### Evaluation -/

theorem Eval.mapError_map {op : Token} (x : Except Cause Value) :
    x.mapError (⟨·, f op⟩) = (x.mapError (⟨·, op⟩)).mapError (Fault.map f) := by
  cases x <;> rfl

/-- A tree has the same value, or the same fault at the same operator. -/
theorem Expr.eval_mapOperators (hf : ∀ t, (f t).data = t.data) (d : Dialect) (e : Expr) :
    (e.mapOperators f).eval d = (e.eval d).mapError (Eval.Fault.map f) := by
  induction e with
  | literal value => rfl
  | grouping inner ih => exact ih
  | unary op operand ih =>
    rw [mapOperators, eval, eval, ih, Token.kind_map hf]
    cases operand.eval d with
    | error fault => rfl
    | ok a => exact Eval.mapError_map _
  | binary left op right ihl ihr =>
    rw [mapOperators, eval, eval, ihl, ihr, Token.kind_map hf]
    cases left.eval d with
    | error fault => rfl
    | ok a =>
      cases right.eval d with
      | error fault => rfl
      | ok b => exact Eval.mapError_map _

/-- A tree in prefix form shows only how its operators are spelled. -/
theorem Expr.text_mapOperators (hf : ∀ t, (f t).lexeme = t.lexeme) (e : Expr) :
    (e.mapOperators f).text = e.text := by
  induction e with
  | literal value => rfl
  | grouping inner ih => rw [mapOperators, text, text, ih]
  | unary op operand ih => rw [mapOperators, text, text, ih, hf]
  | binary left op right ihl ihr => rw [mapOperators, text, text, ihl, ihr, hf]

end LoxCalc
