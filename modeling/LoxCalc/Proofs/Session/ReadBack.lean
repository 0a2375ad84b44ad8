import LoxCalc.Proofs.Decimal.RoundTrip
import LoxCalc.Proofs.Session.Outcome
import LoxCalc.Proofs.Token.Respelling

/-!
# Values read back

What a session shows of a value can be given to a session again. Only strings need quotes, and only
infinities, values that are no number and strings with a quote in them cannot be read. Main
statement: `run_quoted`, the text of every other value reads back to the value, bit for bit.
-/

namespace LoxCalc

namespace Value

/-- The values whose text says what they are, if strings are put between quotes. -/
def IsPrintable : Value → Prop
  | number x => x.isFinite
  | string s => '"' ∉ s.toList
  | boolean _ | nil => True

instance (v : Value) : Decidable v.IsPrintable :=
  match v with
  | number x => inferInstanceAs (Decidable (x.isFinite = true))
  | string s => inferInstanceAs (Decidable ('"' ∉ s.toList))
  | boolean _ | nil => .isTrue trivial

/-- The text of a value as it can stand in a source. -/
def quoted : Value → String
  | string s => "\"" ++ s ++ "\""
  | v => v.text

/-- What is written for a value is a token for it, or a minus sign and a token for a number. -/
theorem quoted_cases {v : Value} (h : v.IsPrintable) : Lexeme v.literalData v.quoted.toList ∨
    ∃ x digits, v = .number (-x) ∧ v.quoted.toList = '-' :: digits ∧
      Lexeme (.number x) digits := by
  cases v with
  | nil => exact .inl (Lexeme.keyword .nilWord)
  | boolean b =>
    left
    cases b with
    | false => exact Lexeme.keyword .falseWord
    | true => exact Lexeme.keyword .trueWord
  | string s =>
    left
    have hlexeme := Lexeme.string h
    simpa [quoted, literalData] using hlexeme
  | number x =>
    rcases Decimal.lexeme_text h with hlexeme | ⟨y, digits, rfl, htext, hlexeme⟩
    · exact .inl hlexeme
    · exact .inr ⟨y, digits, rfl, htext, hlexeme⟩

end Value

namespace Piece

variable {data : Token.Data} {text : List Char}

theorem cut_of_lexeme (lexeme : Lexeme data text) : Cut text [token data text] := by
  have hcut := Cut.cons (stands_of_lexeme lexeme (by simp)) .nil
  rwa [Piece.text, List.append_nil] at hcut

theorem cut_minus (lexeme : Lexeme data text) :
    Cut ('-' :: text) [token (.symbol .minus) ['-'], token data text] :=
  .cons (stands_symbol rfl rfl (by decide) text) (cut_of_lexeme lexeme)

end Piece

namespace Expr

/-- What is written for a value is read without a fault, and has the value in every dialect. -/
theorem exists_ofSource_quoted {v : Value} (h : v.IsPrintable) : ∃ e, ofSource v.quoted = .ok e ∧
    TokenStream.faultsOf v.quoted = [] ∧ ∀ d, e.eval d = .ok v := by
  rcases v.quoted_cases h with hlexeme | ⟨x, digits, rfl, htext, hlexeme⟩
  · have hcut := Piece.cut_of_lexeme hlexeme
    have hlayered : (literal v).WellLayered := ⟨_, .literal v⟩
    refine ⟨_, (ofSource_eq_ok_iff hcut).2 ⟨hlayered, ?_⟩, (TokenStream.scan_of_cut hcut).2,
      fun d => rfl⟩
    exact spelledBy_literal.2 ⟨_, rfl, rfl⟩
  · have hcut := htext ▸ Piece.cut_minus hlexeme
    have hlayered : (unary ⟨.symbol .minus, "-", 1⟩ (literal (.number x))).WellLayered :=
      ⟨_, .unary rfl (.literal _) (by decide)⟩
    refine ⟨_, (ofSource_eq_ok_iff hcut).2 ⟨hlayered, ?_⟩, (TokenStream.scan_of_cut hcut).2,
      fun d => rfl⟩
    exact spelledBy_unary.2 ⟨_, spelledBy_literal.2 ⟨_, rfl, rfl⟩, rfl⟩

end Expr

namespace Session

/-- Values read back. The text of a value, between quotes if it is a string, has no fault; its tree
has that value in every dialect, which is the same number bit for bit; and every session writes the
text again, with any room in the output, and has the same issues as before. -/
theorem run_quoted (v : Value) (h : v.IsPrintable) :
    (∀ r, (TokenStream.scan v.quoted r).2 = r) ∧
      (∃ e, Expr.ofSource v.quoted = .ok e ∧ ∀ d, e.eval d = .ok v) ∧
      ∀ s : Session, s.run .value v.quoted = (v.text ++ "\n", s) ∧
        ∀ k, s.runInto .value v.quoted k =
          ((k.writeLine v.text).1, (k.writeLine v.text).2, s) := by
  obtain ⟨e, hsource, hfaults, heval⟩ := Expr.exists_ofSource_quoted h
  have hshow : ∀ s : Session, s.show? .value v.quoted = (some v.text, s) := by
    intro s
    have houtcome : outcome s.dialect .value v.quoted = (some v.text, []) := by
      rw [outcome, readingIssues, hsource, hfaults]
      simp [shown, heval]
    rw [show?_eq, houtcome, Report.addAll_nil]
  refine ⟨fun r => ?_, ⟨e, hsource, heval⟩, fun s => ⟨?_, fun k => ?_⟩⟩
  · rw [TokenStream.scan_eq, hfaults]
    exact r.addAll_nil
  · rw [run, hshow]
  · rw [runInto, hshow]

/-- The negative zero comes back with its sign. -/
theorem run_quoted_zero :
    (Value.number (.ofBits 0x8000000000000000)).IsPrintable ∧
      (∃ e, Expr.ofSource "-0" = .ok e ∧
        e.eval .strict = .ok (.number (.ofBits 0x8000000000000000))) ∧
      (start .strict).run .value "-0" = ("-0\n", start .strict) := by
  have h : (Value.number (.ofBits 0x8000000000000000)).IsPrintable := by
    decide +kernel
  have hquoted : (Value.number (.ofBits 0x8000000000000000)).quoted = "-0" := by decide +kernel
  have htext : (Value.number (.ofBits 0x8000000000000000)).text = "-0" := hquoted
  obtain ⟨-, ⟨e, hsource, heval⟩, hrun⟩ := run_quoted _ h
  rw [hquoted] at hsource hrun
  rw [htext] at hrun
  exact ⟨h, ⟨e, hsource, heval .strict⟩, (hrun _).1⟩

end Session

end LoxCalc
