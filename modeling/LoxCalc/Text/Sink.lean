/-!
# Outputs of limited room

An output takes the bytes of a text as long as it has room. What does not fit is lost, and the
writer is told so.
-/

namespace LoxCalc

/-- The bytes of a text in UTF-8. -/
def Text.bytes (text : String) : List UInt8 := text.toUTF8.data.toList

/-- An output with room for a number of bytes, and the bytes that it has taken. -/
structure Sink where
  room : Nat
  written : List UInt8

namespace Sink

/-- An empty output. -/
def ofRoom (room : Nat) : Sink := ⟨room, []⟩

/-- Writes a text as far as there is room, and says whether all of it was written. -/
def write (k : Sink) (text : String) : Bool × Sink :=
  let bytes := Text.bytes text
  (bytes.length ≤ k.room, ⟨k.room - bytes.length, k.written ++ bytes.take k.room⟩)

/-- Writes a text and a line feed. The line feed is not tried when the text did not fit. -/
def writeLine (k : Sink) (text : String) : Bool × Sink :=
  match k.write text with
  | (false, k) => (false, k)
  | (true, k) => k.write "\n"

end Sink

end LoxCalc
