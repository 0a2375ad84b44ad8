import LoxCalc.Text.Sink

/-!
# Texts delivered in parts

Bytes reach an output piece by piece, and the output takes each piece in parts of its own choice, as
long as it has room. The writer goes on with what is left of a piece, then with the next one, and
gives up where nothing more is taken. Main statement: `deliversAll_iff`, neither the pieces nor the
parts matter: the output takes what it has room for of all the bytes.
-/

namespace LoxCalc

theorem Text.bytes_append (text text' : String) :
    bytes (text ++ text') = bytes text ++ bytes text' := by
  simp [bytes]

namespace Sink

open Text (bytes)

/-- Offers bytes to an output. It takes them as far as it has room, and says whether it took all. -/
def offer (k : Sink) (xs : List UInt8) : Bool × Sink :=
  (xs.length ≤ k.room, ⟨k.room - xs.length, k.written ++ xs.take k.room⟩)

section Offer

variable {k : Sink} {xs : List UInt8}

theorem offer_nil (k : Sink) : k.offer [] = (true, k) := by
  simp [offer]

theorem offer_of_le (h : xs.length ≤ k.room) :
    k.offer xs = (true, ⟨k.room - xs.length, k.written ++ xs⟩) := by
  simp [offer, h, List.take_of_length_le h]

theorem offer_of_lt (h : k.room < xs.length) :
    k.offer xs = (false, ⟨0, k.written ++ xs.take k.room⟩) := by
  simp [offer, h, Nat.sub_eq_zero_of_le (Nat.le_of_lt h)]

/-- What is offered behind bytes that were all taken might as well be offered with them. -/
theorem offer_append_of_le (h : xs.length ≤ k.room) (ys : List UInt8) :
    k.offer (xs ++ ys) = (k.offer xs).2.offer ys := by
  have hle : xs.length + ys.length ≤ k.room ↔ ys.length ≤ k.room - xs.length := by omega
  rw [offer_of_le h]
  simp only [offer, List.length_append, hle, Nat.sub_add_eq, List.take_append,
    List.take_of_length_le h, List.append_assoc]

/-- Behind bytes that were not all taken nothing is taken. -/
theorem offer_append_of_lt (h : k.room < xs.length) (ys : List UInt8) :
    k.offer (xs ++ ys) = k.offer xs := by
  have hlt : k.room < (xs ++ ys).length := by
    rw [List.length_append]
    omega
  rw [offer_of_lt h, offer_of_lt hlt, List.take_append_of_le_length (Nat.le_of_lt h)]

theorem write_eq (k : Sink) (text : String) : k.write text = k.offer (bytes text) := rfl

/-- A line is offered as a whole, though the line feed is tried only behind a text that fits. -/
theorem writeLine_eq (k : Sink) (text : String) :
    k.writeLine text = k.offer (bytes (text ++ "\n")) := by
  rw [writeLine, write_eq, Text.bytes_append]
  rcases Nat.lt_or_ge k.room (bytes text).length with h | h
  · rw [offer_append_of_lt h, offer_of_lt h]
  · rw [offer_append_of_le h, offer_of_le h]
    rfl

end Offer

/-- Whether an output can take a piece in parts, so that all of the piece is taken or not, and
becomes another output. -/
inductive Delivers : Sink → List UInt8 → Bool → Sink → Prop
  | done (k : Sink) : Delivers k [] true k
  | full {k : Sink} {xs : List UInt8} (no_room : k.room = 0) (left : xs ≠ []) :
      Delivers k xs false k
  | part {k k' : Sink} {taken rest : List UInt8} {fits : Bool} (some_taken : taken ≠ [])
      (le_room : taken.length ≤ k.room)
      (more : Delivers ⟨k.room - taken.length, k.written ++ taken⟩ rest fits k') :
      Delivers k (taken ++ rest) fits k'

/-- Whether an output can take pieces, one after another up to the first that is not all taken. -/
inductive DeliversAll : Sink → List (List UInt8) → Bool → Sink → Prop
  | done (k : Sink) : DeliversAll k [] true k
  | stop {k k' : Sink} {piece : List UInt8} {pieces : List (List UInt8)}
      (stopped : Delivers k piece false k') : DeliversAll k (piece :: pieces) false k'
  | next {k k' k'' : Sink} {piece : List UInt8} {pieces : List (List UInt8)} {fits : Bool}
      (delivered : Delivers k piece true k') (more : DeliversAll k' pieces fits k'') :
      DeliversAll k (piece :: pieces) fits k''

section Delivery

variable {k k' : Sink} {fits : Bool}

theorem Delivers.eq_offer {xs : List UInt8} (h : Delivers k xs fits k') :
    (fits, k') = k.offer xs := by
  induction h with
  | done k => exact (offer_nil k).symm
  | @full k xs no_room left =>
    have hlt : k.room < xs.length := no_room ▸ List.length_pos_iff.2 left
    rw [offer_of_lt hlt, no_room, List.take_zero, List.append_nil]
    exact congrArg (fun room => (false, Sink.mk room k.written)) no_room
  | part some_taken le_room more ih => rw [ih, offer_append_of_le le_room, offer_of_le le_room]

theorem Delivers.offer {xs : List UInt8} (h : Delivers k xs fits k') :
    Delivers k xs (k.offer xs).1 (k.offer xs).2 := by
  rw [← h.eq_offer]
  exact h

/-- An output may take at once all that it has room for. -/
theorem delivers_offer (k : Sink) (xs : List UInt8) :
    Delivers k xs (k.offer xs).1 (k.offer xs).2 := by
  by_cases hempty : xs = []
  · rw [hempty]
    exact (Delivers.done k).offer
  by_cases hroom : k.room = 0
  · exact (Delivers.full hroom hempty).offer
  rcases Nat.lt_or_ge k.room xs.length with h | h
  · have htaken : (xs.take k.room).length = k.room := List.length_take_of_le (Nat.le_of_lt h)
    have hpart := Delivers.part (by simp [hroom, hempty]) (Nat.le_of_eq htaken)
      (.full (by simp [htaken]) (by simpa using h : xs.drop k.room ≠ []))
    rw [List.take_append_drop] at hpart
    exact hpart.offer
  · have hpart := Delivers.part hempty h (.done _)
    rw [List.append_nil] at hpart
    exact hpart.offer

/-- However a piece is taken, it is taken as far as there is room. -/
theorem delivers_iff {xs : List UInt8} : Delivers k xs fits k' ↔ (fits, k') = k.offer xs := by
  constructor
  · exact Delivers.eq_offer
  · intro h
    obtain ⟨rfl, rfl⟩ := Prod.mk.inj h
    exact delivers_offer k xs

theorem DeliversAll.eq_offer {pieces : List (List UInt8)} (h : DeliversAll k pieces fits k') :
    (fits, k') = k.offer pieces.flatten := by
  induction h with
  | done k => exact (offer_nil k).symm
  | @stop k k' piece pieces stopped =>
    have hpiece := delivers_iff.1 stopped
    rcases Nat.lt_or_ge k.room piece.length with h | h
    · rw [List.flatten_cons, offer_append_of_lt h, hpiece]
    · rw [offer_of_le h] at hpiece
      cases (Prod.mk.inj hpiece).1
  | @next k k' k'' piece pieces fits delivered more ih =>
    have hpiece := delivers_iff.1 delivered
    rcases Nat.lt_or_ge k.room piece.length with h | h
    · rw [offer_of_lt h] at hpiece
      cases (Prod.mk.inj hpiece).1
    · rw [List.flatten_cons, offer_append_of_le h, ← hpiece, ih]

theorem deliversAll_offer (k : Sink) (pieces : List (List UInt8)) :
    DeliversAll k pieces (k.offer pieces.flatten).1 (k.offer pieces.flatten).2 := by
  induction pieces generalizing k with
  | nil =>
    rw [List.flatten_nil, offer_nil]
    exact .done k
  | cons piece pieces ih =>
    have hpiece := delivers_offer k piece
    rw [List.flatten_cons]
    rcases Nat.lt_or_ge k.room piece.length with h | h
    · rw [offer_append_of_lt h]
      rw [offer_of_lt h] at hpiece ⊢
      exact .stop hpiece
    · rw [offer_append_of_le h]
      rw [offer_of_le h] at hpiece
      exact .next hpiece (offer_of_le h ▸ ih _)

/-- However pieces are taken, all their bytes are taken as far as there is room. -/
theorem deliversAll_iff {pieces : List (List UInt8)} :
    DeliversAll k pieces fits k' ↔ (fits, k') = k.offer pieces.flatten := by
  constructor
  · exact DeliversAll.eq_offer
  · intro h
    obtain ⟨rfl, rfl⟩ := Prod.mk.inj h
    exact deliversAll_offer k pieces

end Delivery

end Sink

end LoxCalc
