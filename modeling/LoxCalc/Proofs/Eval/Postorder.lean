import LoxCalc.Expr.Eval

/-!
# The order of evaluation

The nodes of a tree in postorder are its nodes in the order of their evaluation. An expression has
a value if all its nodes do, and otherwise its fault is that of the first node that has none. Every
fault is at a reached node (`exists_failsAt`), and no other node without a value is reached
(`Reaches.unique`). Main statement: `eval_postorder`, the first node without a value decides.
-/

namespace LoxCalc

namespace Expr

open Eval (Fault Cause applyUnary applyBinary)

/-- The nodes of a tree, each as the tree below it: the operands of a node from left to right, and
behind them the node. -/
def postorder : Expr → List Expr
  | literal value => [literal value]
  | grouping inner => inner.postorder ++ [grouping inner]
  | unary op operand => operand.postorder ++ [unary op operand]
  | binary left op right => left.postorder ++ right.postorder ++ [binary left op right]

/-- The operator of a node, if it has one. -/
def operator? : Expr → Option Token
  | literal _ => none
  | grouping _ => none
  | unary op _ => some op
  | binary _ op _ => some op

/-- Whether a tree has a value. -/
def HasValue (d : Dialect) (e : Expr) : Prop := ∃ v, e.eval d = .ok v

/-- Whether a node is at fault by itself: its operands have values, but its operator cannot be
applied to them. -/
inductive Refuses (d : Dialect) : Expr → Fault → Prop
  | unary {op : Token} {operand : Expr} {a : Value} {cause : Cause}
      (operand_eq : operand.eval d = .ok a) (refused : applyUnary op.kind a = .error cause) :
      Refuses d (.unary op operand) ⟨cause, op⟩
  | binary {left right : Expr} {op : Token} {a b : Value} {cause : Cause}
      (left_eq : left.eval d = .ok a) (right_eq : right.eval d = .ok b)
      (refused : applyBinary d op.kind a b = .error cause) :
      Refuses d (.binary left op right) ⟨cause, op⟩

/-- Whether evaluation reaches a node, behind some nodes that all have values. -/
structure Reaches (d : Dialect) (e : Expr) (before : List Expr) (node : Expr) : Prop where
  place : ∃ after, e.postorder = before ++ node :: after
  values : ∀ n ∈ before, n.HasValue d

/-- Whether evaluation ends with a fault of a node, behind some nodes that all have values. -/
structure FailsAt (d : Dialect) (e : Expr) (before : List Expr) (node : Expr) (fault : Fault) :
    Prop where
  eval_eq : e.eval d = .error fault
  reaches : e.Reaches d before node
  refuses : node.Refuses d fault

/-! ### One node -/

section Node

variable {d : Dialect} {e left right : Expr} {op : Token} {v : Value} {fault : Fault}

theorem mapError_eq_ok_iff {x : Except Cause Value} :
    x.mapError (⟨·, op⟩ : Cause → Fault) = .ok v ↔ x = .ok v := by
  cases x with
  | ok w => exact ⟨fun h => congrArg _ (Except.ok.inj h), fun h => congrArg _ (Except.ok.inj h)⟩
  | error cause => exact ⟨nofun, nofun⟩

theorem mapError_eq_error_iff {x : Except Cause Value} :
    x.mapError (⟨·, op⟩ : Cause → Fault) = .error fault ↔
      ∃ cause, x = .error cause ∧ fault = ⟨cause, op⟩ := by
  cases x with
  | ok w => exact ⟨nofun, nofun⟩
  | error cause =>
    constructor
    · intro h
      exact ⟨cause, rfl, (Except.error.inj h).symm⟩
    · rintro ⟨cause', hcause, rfl⟩
      obtain rfl := Except.error.inj hcause
      rfl

theorem eval_unary_eq_ok_iff : (unary op e).eval d = .ok v ↔
    ∃ a, e.eval d = .ok a ∧ applyUnary op.kind a = .ok v := by
  rw [eval]
  cases e.eval d with
  | error fault => simp
  | ok a => simp [mapError_eq_ok_iff]

theorem eval_binary_eq_ok_iff : (binary left op right).eval d = .ok v ↔
    ∃ a b, left.eval d = .ok a ∧ right.eval d = .ok b ∧ applyBinary d op.kind a b = .ok v := by
  rw [eval]
  cases left.eval d with
  | error fault => simp
  | ok a =>
    cases right.eval d with
    | error fault => simp
    | ok b => simp [mapError_eq_ok_iff]

/-- A fault of a unary operator is that of its operand, or its own. -/
theorem eval_unary_eq_error (h : (unary op e).eval d = .error fault) :
    e.eval d = .error fault ∨ e.HasValue d ∧ (unary op e).Refuses d fault := by
  rw [eval] at h
  cases he : e.eval d with
  | error fault' =>
    rw [he] at h
    exact .inl h
  | ok a =>
    rw [he] at h
    obtain ⟨cause, happly, rfl⟩ := mapError_eq_error_iff.1 h
    exact .inr ⟨⟨a, he⟩, .unary he happly⟩

/-- A fault of a binary operator is that of its left operand, that of its right operand if the left
one has a value, or its own if both have. -/
theorem eval_binary_eq_error (h : (binary left op right).eval d = .error fault) :
    left.eval d = .error fault ∨ left.HasValue d ∧ right.eval d = .error fault ∨
      left.HasValue d ∧ right.HasValue d ∧ (binary left op right).Refuses d fault := by
  rw [eval] at h
  cases hl : left.eval d with
  | error fault' =>
    rw [hl] at h
    exact .inl h
  | ok a =>
    rw [hl] at h
    cases hr : right.eval d with
    | error fault' =>
      rw [hr] at h
      exact .inr (.inl ⟨⟨a, hl⟩, h⟩)
    | ok b =>
      rw [hr] at h
      obtain ⟨cause, happly, rfl⟩ := mapError_eq_error_iff.1 h
      exact .inr (.inr ⟨⟨a, hl⟩, ⟨b, hr⟩, .binary hl hr happly⟩)

theorem Refuses.eval_eq (h : e.Refuses d fault) : e.eval d = .error fault := by
  cases h with
  | unary operand_eq refused =>
    rw [eval, operand_eq]
    exact mapError_eq_error_iff.2 ⟨_, refused, rfl⟩
  | binary left_eq right_eq refused =>
    rw [eval, left_eq, right_eq]
    exact mapError_eq_error_iff.2 ⟨_, refused, rfl⟩

theorem Refuses.not_hasValue (h : e.Refuses d fault) : ¬e.HasValue d := by
  rintro ⟨v, hv⟩
  cases h.eval_eq.symm.trans hv

end Node

/-! ### All nodes -/

section Nodes

variable {d : Dialect} {e : Expr} {fault : Fault}

/-- An expression has a value only if all its nodes do. -/
theorem HasValue.forall_mem_postorder (h : e.HasValue d) : ∀ n ∈ e.postorder, n.HasValue d := by
  induction e with
  | literal value => simpa [postorder] using h
  | grouping inner ih =>
    intro n hn
    rcases List.mem_append.1 hn with hn | hn
    · exact ih h n hn
    · rwa [List.mem_singleton.1 hn]
  | unary op operand ih =>
    intro n hn
    obtain ⟨v, hv⟩ := h
    obtain ⟨a, ha, -⟩ := eval_unary_eq_ok_iff.1 hv
    rcases List.mem_append.1 hn with hn | hn
    · exact ih ⟨a, ha⟩ n hn
    · exact ⟨v, List.mem_singleton.1 hn ▸ hv⟩
  | binary left op right ihl ihr =>
    intro n hn
    obtain ⟨v, hv⟩ := h
    obtain ⟨a, b, ha, hb, -⟩ := eval_binary_eq_ok_iff.1 hv
    rcases List.mem_append.1 hn with hn | hn
    · rcases List.mem_append.1 hn with hn | hn
      · exact ihl ⟨a, ha⟩ n hn
      · exact ihr ⟨b, hb⟩ n hn
    · exact ⟨v, List.mem_singleton.1 hn ▸ hv⟩

/-- A node of an operand is reached in the whole if all nodes before the operand have values. -/
theorem Reaches.lift {e' node : Expr} {before : List Expr} (h : e.Reaches d before node)
    (front back : List Expr) (hpost : e'.postorder = front ++ e.postorder ++ back)
    (hfront : ∀ n ∈ front, n.HasValue d) : e'.Reaches d (front ++ before) node := by
  obtain ⟨⟨after, hplace⟩, hvalues⟩ := h
  refine ⟨⟨after ++ back, by simp [hpost, hplace]⟩, fun n hn => ?_⟩
  rcases List.mem_append.1 hn with hn | hn
  · exact hfront n hn
  · exact hvalues n hn

/-- Every fault is at a node behind nodes that all have values. -/
theorem exists_failsAt (h : e.eval d = .error fault) :
    ∃ before node, e.FailsAt d before node fault := by
  induction e with
  | literal value => cases h
  | grouping inner ih =>
    obtain ⟨before, node, hinner⟩ := ih h
    exact ⟨before, node, h, hinner.reaches.lift [] _ rfl (by simp), hinner.refuses⟩
  | unary op operand ih =>
    rcases eval_unary_eq_error h with hoperand | ⟨hvalue, hrefuses⟩
    · obtain ⟨before, node, hfails⟩ := ih hoperand
      exact ⟨before, node, h, hfails.reaches.lift [] _ rfl (by simp), hfails.refuses⟩
    · exact ⟨operand.postorder, _, h, ⟨⟨[], rfl⟩, hvalue.forall_mem_postorder⟩, hrefuses⟩
  | binary left op right ihl ihr =>
    rcases eval_binary_eq_error h with hleft | ⟨hvalue, hright⟩ | ⟨hvalue, hvalue', hrefuses⟩
    · obtain ⟨before, node, hfails⟩ := ihl hleft
      have hpost : (binary left op right).postorder =
          [] ++ left.postorder ++ (right.postorder ++ [binary left op right]) :=
        List.append_assoc _ _ _
      exact ⟨before, node, h, hfails.reaches.lift [] _ hpost (by simp), hfails.refuses⟩
    · obtain ⟨before, node, hfails⟩ := ihr hright
      exact ⟨left.postorder ++ before, node, h,
        hfails.reaches.lift _ _ rfl hvalue.forall_mem_postorder, hfails.refuses⟩
    · refine ⟨left.postorder ++ right.postorder, _, h, ⟨⟨[], rfl⟩, fun n hn => ?_⟩, hrefuses⟩
      rcases List.mem_append.1 hn with hn | hn
      · exact hvalue.forall_mem_postorder n hn
      · exact hvalue'.forall_mem_postorder n hn

/-- Two places of a list are the same, or one of them is before the other. -/
theorem append_cons_cases {α : Type} {xs ys xs' ys' : List α} {x x' : α}
    (h : xs ++ x :: ys = xs' ++ x' :: ys') :
    (xs = xs' ∧ x = x') ∨ (∃ zs, xs = xs' ++ x' :: zs) ∨ ∃ zs, xs' = xs ++ x :: zs := by
  rcases List.append_eq_append_iff.1 h with ⟨zs, hxs, hzs⟩ | ⟨zs, hxs, hzs⟩
  · cases zs with
    | nil => exact .inl ⟨by simpa using hxs.symm, (List.cons.inj hzs).1⟩
    | cons z zs => exact .inr (.inr ⟨zs, (List.cons.inj hzs).1 ▸ hxs⟩)
  · cases zs with
    | nil => exact .inl ⟨by simpa using hxs, (List.cons.inj hzs).1.symm⟩
    | cons z zs => exact .inr (.inl ⟨zs, (List.cons.inj hzs).1 ▸ hxs⟩)

/-- A reached node without a value is behind every other reached node. -/
theorem Reaches.eq_or_exists_between {before front : List Expr} {node other : Expr}
    (h : e.Reaches d before node) (hnode : ¬node.HasValue d) (hother : e.Reaches d front other) :
    (before = front ∧ node = other) ∨ ∃ between, before = front ++ other :: between := by
  obtain ⟨after, hplace⟩ := h.place
  obtain ⟨after', hplace'⟩ := hother.place
  rcases append_cons_cases (hplace.symm.trans hplace') with heq | hbetween | ⟨between, rfl⟩
  · exact .inl heq
  · exact .inr hbetween
  · exact absurd (hother.values node (by simp)) hnode

/-- Only one node without a value is reached. -/
theorem Reaches.unique {before before' : List Expr} {node node' : Expr}
    (h : e.Reaches d before node) (hnode : ¬node.HasValue d) (h' : e.Reaches d before' node')
    (hnode' : ¬node'.HasValue d) : before = before' ∧ node = node' := by
  rcases h.eq_or_exists_between hnode h' with heq | ⟨between, rfl⟩
  · exact heq
  · exact absurd (h.values node' (by simp)) hnode'

/-- A reached node that is at fault by itself is the node of the fault. -/
theorem Reaches.failsAt {before : List Expr} {node : Expr} (h : e.Reaches d before node)
    (hrefuses : node.Refuses d fault) : e.FailsAt d before node fault := by
  refine ⟨?_, h, hrefuses⟩
  cases heval : e.eval d with
  | ok v =>
    obtain ⟨after, hplace⟩ := h.place
    have hvalue := HasValue.forall_mem_postorder ⟨v, heval⟩ node (by simp [hplace])
    exact absurd hvalue hrefuses.not_hasValue
  | error fault' =>
    obtain ⟨before', node', hfails⟩ := exists_failsAt heval
    obtain ⟨-, rfl⟩ := h.unique hrefuses.not_hasValue hfails.reaches hfails.refuses.not_hasValue
    exact hfails.refuses.eval_eq.symm.trans hrefuses.eval_eq

/-- A node is the last one of its own tree. -/
theorem exists_postorder_eq (e : Expr) : ∃ below, e.postorder = below ++ [e] := by
  cases e with
  | literal value => exact ⟨[], rfl⟩
  | _ => exact ⟨_, rfl⟩

theorem hasValue_iff : e.HasValue d ↔ ∀ n ∈ e.postorder, n.HasValue d := by
  constructor
  · exact HasValue.forall_mem_postorder
  · intro h
    obtain ⟨below, hbelow⟩ := e.exists_postorder_eq
    exact h e (by simp [hbelow])

/-- All nodes below one that is at fault by itself have values. -/
theorem Refuses.exists_below (h : e.Refuses d fault) :
    ∃ below, e.postorder = below ++ [e] ∧ ∀ n ∈ below, n.HasValue d := by
  cases h with
  | unary operand_eq refused => exact ⟨_, rfl, HasValue.forall_mem_postorder ⟨_, operand_eq⟩⟩
  | binary left_eq right_eq refused =>
    refine ⟨_, rfl, fun n hn => ?_⟩
    rcases List.mem_append.1 hn with hn | hn
    · exact HasValue.forall_mem_postorder ⟨_, left_eq⟩ n hn
    · exact HasValue.forall_mem_postorder ⟨_, right_eq⟩ n hn

theorem Refuses.operator?_eq (h : e.Refuses d fault) : e.operator? = some fault.operator := by
  cases h <;> rfl

/-- An expression has a value exactly if all its nodes do, so no operand is ever skipped. Otherwise
the first node in postorder that has no value decides: all nodes below it have values, its fault is
at its own operator, and the whole expression has that fault, whatever else is at fault in it. -/
theorem eval_postorder (d : Dialect) (e : Expr) :
    (e.HasValue d ↔ ∀ n ∈ e.postorder, n.HasValue d) ∧
    ∀ (before after : List Expr) (node : Expr), e.postorder = before ++ node :: after →
      (∀ n ∈ before, n.HasValue d) → ¬node.HasValue d →
        ∃ below fault, node.postorder = below ++ [node] ∧ (∀ n ∈ below, n.HasValue d) ∧
          node.eval d = .error fault ∧ node.operator? = some fault.operator ∧
          e.eval d = .error fault := by
  refine ⟨hasValue_iff, fun before after node hplace hbefore hnode => ?_⟩
  have hreaches : e.Reaches d before node := ⟨⟨after, hplace⟩, hbefore⟩
  cases heval : e.eval d with
  | ok v =>
    have hvalue : e.HasValue d := ⟨v, heval⟩
    exact absurd (hvalue.forall_mem_postorder node (by simp [hplace])) hnode
  | error fault =>
    -- the node at which evaluation ends is the only reached one without a value
    obtain ⟨before', node', hfails⟩ := exists_failsAt heval
    obtain ⟨-, rfl⟩ := hreaches.unique hnode hfails.reaches hfails.refuses.not_hasValue
    obtain ⟨below, hbelow, hvalues⟩ := hfails.refuses.exists_below
    exact ⟨below, fault, hbelow, hvalues, hfails.refuses.eval_eq, hfails.refuses.operator?_eq, rfl⟩

/-- Neither operand of a comparison has a value, and the fault is that of the left one. -/
theorem eval_postorder_equality :
    let minus : Token := ⟨.symbol .minus, "-", 1⟩
    let left := binary (literal .nil) minus (literal (.number 1))
    let right := unary ⟨.symbol .minus, "-", 2⟩ (literal (.string "a"))
    let e := binary left ⟨.symbol .equalEqual, "==", 1⟩ right
    let before := [literal .nil, literal (.number 1)]
    let after := [literal (.string "a"), right, e]
    e.postorder = before ++ left :: after ∧ (∀ n ∈ before, n.HasValue .standard) ∧
      ¬left.HasValue .standard ∧ ¬right.HasValue .standard ∧
      e.eval .standard = .error ⟨.operandsMustBeNumbers, minus⟩ := by
  intro minus left right e before after
  have hplace : e.postorder = before ++ left :: after := rfl
  have hbefore : ∀ n ∈ before, n.HasValue .standard := by
    simpa [before] using ⟨⟨_, rfl⟩, ⟨_, rfl⟩⟩
  have hleft : ¬left.HasValue .standard := nofun
  obtain ⟨below, fault, -, -, hfault, -, heval⟩ :=
    (eval_postorder .standard e).2 before after left hplace hbefore hleft
  obtain rfl : fault = ⟨.operandsMustBeNumbers, minus⟩ := (Except.error.inj hfault).symm
  exact ⟨hplace, hbefore, hleft, nofun, heval⟩

end Nodes

end Expr

end LoxCalc
