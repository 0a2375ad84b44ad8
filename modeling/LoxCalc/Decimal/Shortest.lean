import LoxCalc.Decimal.Nearest

/-!
# The shortest decimal of a double

A finite double is written with the fewest digits that read back to it: of the decimals nearer to
it than to any other double the one with the coarsest last place, of several such the nearest, and
of two equally near ones the larger. The point is always written out, never an exponent.

All of it is exact: doubles and the midpoints between neighbours are whole numbers of steps of
`10^-1076`, and the search runs over the powers of ten on that grid.
-/

namespace LoxCalc.Decimal

/-- The number of decimal places of the grid. -/
def gridPlaces : Nat := 1076

/-- A double on the grid: `2^-1074` is `4 * 5^1076` steps of `10^-1076`. -/
def onGrid (bits : Nat) : Nat := units bits * (4 * Nat.pow 5 gridPlaces)

/-- The grid numbers that read back to one double. -/
structure Cell where
  lower : Nat
  upper : Nat
  closed : Bool

namespace Cell

/-- The numbers between the midpoints to both neighbours. The midpoints themselves read back to
the double whose pattern is even. -/
def ofBits (bits : Nat) : Cell where
  lower := (onGrid (bits - 1) + onGrid bits) / 2
  upper := (onGrid bits + onGrid (bits + 1)) / 2
  closed := bits % 2 == 0

/-- Whether a grid number reads back to the double of the cell. -/
def contains (cell : Cell) (x : Nat) : Bool :=
  if cell.closed then cell.lower ≤ x && x ≤ cell.upper else cell.lower < x && x < cell.upper

/-- The multiple of `step` in the cell that is nearest to `x`, the larger one of two equally near.
One of the two multiples around `x` is in the cell as soon as any multiple is. -/
def nearestMultiple? (cell : Cell) (x step : Nat) : Option Nat :=
  let below := x / step * step
  let above := below + step
  if cell.contains below && (x - below < above - x || !cell.contains above) then some below
  else if cell.contains above then some above
  else none

/-- The number in the cell that ends in the most zeros among the powers of ten up to `10^j`, and
`x` itself if no power of ten has a multiple there. -/
def coarsest (cell : Cell) (x : Nat) : Nat → Nat
  | 0 => x
  | j + 1 => (cell.nearestMultiple? x (Nat.pow 10 (j + 1))).getD (coarsest cell x j)

end Cell

/-- The grid number whose digits are written for a double. -/
def shortest (bits : Nat) : Nat :=
  let cell := Cell.ofBits bits
  cell.coarsest (onGrid bits) (Nat.toDigits 10 cell.upper).length

/-- The digits of `x / 10^places`, with a point only where digits follow it. -/
def positional (places x : Nat) : List Char :=
  let whole := Nat.toDigits 10 (x / Nat.pow 10 places)
  let digits := Nat.toDigits 10 (x % Nat.pow 10 places)
  let padded := List.replicate (places - digits.length) '0' ++ digits
  let fraction := (padded.reverse.dropWhile (· == '0')).reverse
  if fraction.isEmpty then whole else whole ++ '.' :: fraction

/-- The text of a double without sign. -/
def textOfBits (bits : Nat) : List Char :=
  if bits < infinityBits then positional gridPlaces (shortest bits)
  else if bits = infinityBits then ['i', 'n', 'f']
  else ['N', 'a', 'N']

/-- The place of the sign in a bit pattern. -/
def signBit : Nat := 0x8000000000000000

/-- The text of a double. A negative sign is also written before zero, but not before a value that
is no number. -/
def text (x : Float) : String :=
  let bits := x.toBits.toNat
  let magnitude := bits % signBit
  if signBit ≤ bits ∧ magnitude ≤ infinityBits then
    String.ofList ('-' :: textOfBits magnitude)
  else String.ofList (textOfBits magnitude)

end LoxCalc.Decimal
