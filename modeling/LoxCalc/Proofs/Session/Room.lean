import LoxCalc.Proofs.Session.Verdict
import LoxCalc.Proofs.Text.Delivery

/-!
# Outputs of limited room

All issues of a source are found before anything is written, so an output that is full loses text
and nothing else. Main statement: `runInto_room`, it takes what it has room for of what is shown,
and the session goes on as if it had taken all.
-/

namespace LoxCalc.Session

open Text (bytes)

/-- The call with an output of unlimited room in place of its own. -/
def Call.unlimited : Call → Call
  | .runInto mode source _ => .run mode source
  | c => c

theorem call_unlimited (s : Session) (c : Call) : s.call c.unlimited = s.call c := by
  cases c with
  | runInto mode source k => rw [Call.unlimited, call, call, run_snd, runInto_snd]
  | _ => rfl

/-- No history depends on the room in the outputs. -/
theorem afterCalls_unlimited (s : Session) (calls : List Call) :
    s.afterCalls (calls.map Call.unlimited) = s.afterCalls calls := by
  induction calls generalizing s with
  | nil => rfl
  | cons c calls ih =>
    have hcons : ∀ (s : Session) c calls, s.afterCalls (c :: calls) = (s.call c).afterCalls calls :=
      fun _ _ _ => rfl
    rw [List.map_cons, hcons, hcons, call_unlimited, ih]

/-- An output is offered what a run with unlimited room writes. -/
theorem runInto_eq (s : Session) (mode : Mode) (source : String) (k : Sink) :
    s.runInto mode source k =
      let taken := k.offer (bytes (s.run mode source).1)
      (taken.1, taken.2, (s.run mode source).2) := by
  rw [runInto, run]
  cases s.show? mode source with
  | mk shown s' =>
    cases shown with
    | none =>
      have hnone : bytes "" = [] := rfl
      dsimp only
      rw [hnone, Sink.offer_nil]
    | some text =>
      dsimp only
      rw [Sink.writeLine_eq]

/-- A full output loses only the bytes that it has no room for. With room for `n` bytes, the first
`n` bytes of what is shown are written, or all of them; a failure is told exactly if some are left,
so never when nothing is shown; and the session afterwards is the one after a run with unlimited
room. Every later call finds the session that it would find if all outputs had been unlimited. All
of this holds into whatever pieces the bytes are cut and in whatever parts the output takes them. -/
theorem runInto_room (s : Session) (mode : Mode) (source : String) (n : Nat) :
    let w := bytes (s.run mode source).1
    let limited := s.runInto mode source (.ofRoom n)
    limited.2.1 = ⟨n - w.length, w.take (min n w.length)⟩ ∧
    (limited.1 = false ↔ n < w.length) ∧
    limited.2.2 = (s.run mode source).2 ∧
    (w = [] → limited.1 = true) ∧
    (∀ pieces : List (List UInt8), pieces.flatten = w → ∀ fits k,
      Sink.DeliversAll (.ofRoom n) pieces fits k ↔ fits = limited.1 ∧ k = limited.2.1) ∧
    ∀ later : List Call, limited.2.2.afterCalls later =
      s.afterCalls ((.run mode source :: later).map Call.unlimited) := by
  intro w limited
  have hlimited : limited = (((Sink.ofRoom n).offer w).1, ((Sink.ofRoom n).offer w).2,
    (s.run mode source).2) := runInto_eq s mode source (.ofRoom n)
  rw [hlimited]
  refine ⟨?_, ?_, rfl, fun hw => ?_, fun pieces hpieces fits k => ?_, fun later => ?_⟩
  · simp [Sink.offer, Sink.ofRoom]
  · exact decide_eq_false_iff_not.trans Nat.not_le
  · rw [hw, Sink.offer_nil]
  · rw [Sink.deliversAll_iff, hpieces]
    exact Prod.ext_iff
  · rw [afterCalls_unlimited]
    rfl

/-- An output with room for the value loses the line feed behind it, which may come as a piece of
its own; and an output without room is enough for an expression that has no value. -/
theorem runInto_room_lineFeed :
    let s := start .standard
    bytes (s.run .value "1").1 = [49, 10] ∧
      (s.runInto .value "1" (.ofRoom 1)).1 = false ∧
      (s.runInto .value "1" (.ofRoom 1)).2.1 = ⟨0, [49]⟩ ∧
      Sink.DeliversAll (.ofRoom 1) [[49], [10]] false ⟨0, [49]⟩ ∧
      bytes (s.run .value "-nil").1 = [] ∧ (s.runInto .value "-nil" (.ofRoom 0)).1 = true := by
  intro s
  have hw : bytes (s.run .value "1").1 = [49, 10] := by decide +kernel
  have hw' : bytes (s.run .value "-nil").1 = [] := by decide +kernel
  obtain ⟨hsink, hfails, -, -, hpieces, -⟩ := runInto_room s .value "1" 1
  have hdelivers := (hpieces [[49], [10]] hw.symm false ⟨0, [49]⟩).2
  rw [hw] at hsink hfails
  have hfalse := hfails.2 (by decide)
  exact ⟨hw, hfalse, hsink, hdelivers ⟨hfalse.symm, hsink.symm⟩, hw',
    (runInto_room s .value "-nil" 0).2.2.2.1 hw'⟩

end LoxCalc.Session
