import LoxCalc.Proofs.Expr.Indexed
import LoxCalc.Proofs.Token.Slices

/-!
# Checks that always pass

Reading takes slices of a source and looks at tokens by index. Both are partial: a slice can start
in another text, end before it starts or fall inside a character, the text of a string or number can
lack what is looked for in it, and an index can be out of range. Main statement: `checks_pass`,
whatever is read, and however often a stream or a parser is called, none of this happens.
-/

namespace LoxCalc

namespace Session

/-- Every call of a token stream finds the slices that it takes, and every call of a parser the
tokens that it looks at: with all checks made they return what they do without. The parser stays at
or before the first end of input. -/
theorem checks_pass (source : String) (n : Nat) (tokens : List Token) (calls : List Parser.Call) :
    (TokenStream.ofString source).nextsSliced n = .ok ((TokenStream.ofString source).nexts n) ∧
      (Parser.ofTokens tokens).answersIndexed calls =
        .ok ((Parser.ofTokens tokens).answers calls) ∧
      ((Parser.ofTokens tokens).answers calls).2.Guarded := by
  have hsource : (TokenStream.ofString source).HasRead := ⟨[], Cursor.hasRead_ofText _⟩
  have hparser := Parser.guarded_ofTokens tokens
  refine ⟨hsource.nextsSliced_eq n, hparser.answersIndexed_eq calls, ?_⟩
  rw [Parser.answers_snd]
  exact hparser.afterCalls calls

/-- The checks are real: a lone quote has no contents, a point needs digits behind it, and no token
is behind the last one. -/
example (t : Token) : Breach.contentsOf ['"'] = .error (.contents ['"']) ∧
    Breach.numeralOf ['1', '.'] = .error (.numeral ['1', '.']) ∧
    Grammar.look [t] 1 = .error (.outOfRange 1) :=
  ⟨rfl, rfl, rfl⟩

end Session

end LoxCalc
