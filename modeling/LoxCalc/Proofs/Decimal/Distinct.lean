import LoxCalc.Proofs.Decimal.Patterns
import LoxCalc.Proofs.Decimal.RoundTrip
import LoxCalc.Proofs.Token.Respelling

/-!
# Texts of doubles

No two doubles are written alike, bit for bit. A finite double is written as a lexeme of it, which
means one thing only and is spelled with digits and points; the sign and the two words for what is
not finite have other characters in them. Main statement: `text_inj`.
-/

namespace LoxCalc.Decimal

/-- A double without sign is written as a lexeme of it, or with the word for its pattern. -/
theorem textOfBits_cases (b : Nat) :
    b < infinityBits ∧ Lexeme (.number (.ofBits (.ofNat b))) (textOfBits b) ∨
      b = infinityBits ∧ textOfBits b = ['i', 'n', 'f'] ∨
      infinityBits < b ∧ textOfBits b = ['N', 'a', 'N'] := by
  rw [textOfBits]
  rcases lt_trichotomy b infinityBits with h | h | h
  · rw [if_pos h]
    exact .inl ⟨h, lexeme_shortest h⟩
  · rw [if_neg (by omega), if_pos h]
    exact .inr (.inl ⟨h, rfl⟩)
  · rw [if_neg (by omega), if_neg (by omega)]
    exact .inr (.inr ⟨h, rfl⟩)

/-- The characters that a double without sign is written with. -/
theorem mem_textOfBits {b : Nat} {c : Char} (h : c ∈ textOfBits b) :
    c.isDigit ∨ c ∈ ['.', 'i', 'n', 'f', 'N', 'a'] := by
  rcases textOfBits_cases b with ⟨-, hlexeme⟩ | ⟨-, htext⟩ | ⟨-, htext⟩
  · refine (hlexeme.isDigit_or_eq_of_number c h).imp_right ?_
    rintro rfl
    exact List.mem_cons_self
  · have hword : ['i', 'n', 'f'] ⊆ ['.', 'i', 'n', 'f', 'N', 'a'] := by simp
    exact .inr (hword (htext ▸ h))
  · have hword : ['N', 'a', 'N'] ⊆ ['.', 'i', 'n', 'f', 'N', 'a'] := by simp
    exact .inr (hword (htext ▸ h))

theorem textOfBits_ne_nil (b : Nat) : textOfBits b ≠ [] := by
  rcases textOfBits_cases b with ⟨-, hlexeme⟩ | ⟨-, htext⟩ | ⟨-, htext⟩
  · exact hlexeme.ne_nil
  · simp [htext]
  · simp [htext]

section Sizes

variable {b b' : Nat}

theorem magnitude_ofNat (h : b ≤ infinityBits) : magnitude (.ofNat b) = b := by
  have hsign : infinityBits < signBit := by decide
  have hlt : b < 2 ^ 64 := (h.trans_lt hsign).trans (by decide)
  rw [magnitude, UInt64.toNat_ofNat_of_lt' hlt, Nat.mod_eq_of_lt (h.trans_lt hsign)]

/-- A finite double without sign is written as no other. -/
theorem eq_of_textOfBits_eq_of_lt (hb : b < infinityBits) (h : textOfBits b = textOfBits b') :
    b = b' := by
  rcases textOfBits_cases b with ⟨-, hlexeme⟩ | ⟨rfl, -⟩ | ⟨hlt, -⟩
  · rw [h] at hlexeme
    rcases textOfBits_cases b' with ⟨hb', hlexeme'⟩ | ⟨-, htext⟩ | ⟨-, htext⟩
    · have hdata := hlexeme.data_unique hlexeme'
      have hbits := (ofBits_inj ((magnitude_ofNat hb.le).trans_le hb.le)
        ((magnitude_ofNat hb'.le).trans_le hb'.le)).1 (Token.Data.number.inj hdata)
      have hmagnitude := congrArg magnitude hbits
      rwa [magnitude_ofNat hb.le, magnitude_ofNat hb'.le] at hmagnitude
    · have hchar := hlexeme.isDigit_or_eq_of_number 'f' (by simp [htext])
      exact absurd hchar (by decide)
    · have hchar := hlexeme.isDigit_or_eq_of_number 'a' (by simp [htext])
      exact absurd hchar (by decide)
  · exact absurd hb (lt_irrefl _)
  · omega

/-- Two doubles without sign are written alike only if they are the same or both no numbers. -/
theorem eq_of_textOfBits_eq (h : textOfBits b = textOfBits b') :
    b = b' ∨ infinityBits < b ∧ infinityBits < b' := by
  rcases textOfBits_cases b with ⟨hb, -⟩ | ⟨rfl, htext⟩ | ⟨hb, htext⟩
  · exact .inl (eq_of_textOfBits_eq_of_lt hb h)
  · rcases textOfBits_cases b' with ⟨hb', -⟩ | ⟨hb', -⟩ | ⟨-, htext'⟩
    · exact .inl (eq_of_textOfBits_eq_of_lt hb' h.symm).symm
    · exact .inl hb'.symm
    · rw [htext, htext'] at h
      exact absurd h (by decide)
  · rcases textOfBits_cases b' with ⟨hb', -⟩ | ⟨-, htext'⟩ | ⟨hb', -⟩
    · exact .inl (eq_of_textOfBits_eq_of_lt hb' h.symm).symm
    · rw [htext, htext'] at h
      exact absurd h (by decide)
    · exact .inr ⟨hb, hb'⟩

end Sizes

/-! ### Signs -/

/-- Whether a sign is written before a double. -/
def IsSigned (x : Float) : Prop :=
  signBit ≤ x.toBits.toNat ∧ magnitude x.toBits ≤ infinityBits

section Signs

variable {x y : Float}

theorem text_of_isSigned (h : IsSigned x) :
    (text x).toList = '-' :: textOfBits (magnitude x.toBits) := by
  have htext : text x = String.ofList ('-' :: textOfBits (magnitude x.toBits)) := if_pos h
  rw [htext, String.toList_ofList]

theorem text_of_not_isSigned (h : ¬IsSigned x) :
    (text x).toList = textOfBits (magnitude x.toBits) := by
  have htext : text x = String.ofList (textOfBits (magnitude x.toBits)) := if_neg h
  rw [htext, String.toList_ofList]

/-- The characters that a double is written with. -/
theorem mem_text {c : Char} (h : c ∈ (text x).toList) :
    c.isDigit ∨ c ∈ ['-', '.', 'i', 'n', 'f', 'N', 'a'] := by
  by_cases hx : IsSigned x
  · rw [text_of_isSigned hx] at h
    rcases List.mem_cons.1 h with rfl | h
    · exact .inr List.mem_cons_self
    · exact (mem_textOfBits h).imp_right (List.mem_cons_of_mem _)
  · rw [text_of_not_isSigned hx] at h
    exact (mem_textOfBits h).imp_right (List.mem_cons_of_mem _)

theorem text_ne_nil (x : Float) : (text x).toList ≠ [] := by
  by_cases hx : IsSigned x
  · simp [text_of_isSigned hx]
  · rw [text_of_not_isSigned hx]
    exact textOfBits_ne_nil _

/-- A sign is seen in what is written. -/
theorem isSigned_iff : IsSigned x ↔ '-' ∈ (text x).toList := by
  by_cases hx : IsSigned x
  · simp [text_of_isSigned hx, hx]
  · rw [text_of_not_isSigned hx]
    refine iff_of_false hx fun hmem => ?_
    exact absurd (mem_textOfBits hmem) (by decide)

/-- What is no number is written in one way, and any other double as no other is: two doubles with
one text are the same, with the same sign of a zero. -/
theorem text_inj : text x = text y ↔ x = y := by
  refine ⟨fun h => ?_, congrArg text⟩
  have hsigned : IsSigned x ↔ IsSigned y := by rw [isSigned_iff, isSigned_iff, h]
  have hsize : textOfBits (magnitude x.toBits) = textOfBits (magnitude y.toBits) := by
    have hlist := congrArg String.toList h
    by_cases hx : IsSigned x
    · rw [text_of_isSigned hx, text_of_isSigned (hsigned.1 hx)] at hlist
      exact (List.cons.inj hlist).2
    · rwa [text_of_not_isSigned hx, text_of_not_isSigned fun hy => hx (hsigned.2 hy)] at hlist
  by_cases hnan : infinityBits < magnitude x.toBits
  · have hnan' : infinityBits < magnitude y.toBits := by
      rcases eq_of_textOfBits_eq hsize with heq | ⟨-, hlt⟩
      · rwa [← heq]
      · exact hlt
    rw [← Float.ofBits_toBits x, ← Float.ofBits_toBits y, ofBits_eq_nan_iff.2 hnan,
      ofBits_eq_nan_iff.2 hnan']
  · have hmagnitude : magnitude x.toBits = magnitude y.toBits := by
      rcases eq_of_textOfBits_eq hsize with heq | ⟨hlt, -⟩
      · exact heq
      · exact absurd hlt hnan
    have hx : x.toBits.toNat < 2 * signBit := x.toBits.toNat_lt
    have hy : y.toBits.toNat < 2 * signBit := y.toBits.toNat_lt
    rw [← Float.toBits_inj, ← UInt64.toNat_inj]
    unfold IsSigned at hsigned
    unfold magnitude at *
    unfold signBit at *
    omega

end Signs

end LoxCalc.Decimal
