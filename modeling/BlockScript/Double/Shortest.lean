import BlockScript.Double.Basic
import BlockScript.Text.Digits

/-!
# The shortest decimal of a double

Every decimal in a small interval around a double reads back as that double.  `shortest` picks the
one to print: the decimal with the fewest digits in the interval, and of those the nearest.  It
tries one, two, three, … digits in turn.  For a given number of digits only the two multiples of the
last place around the value can be hits, because the interval contains the value.  All arithmetic
is on natural numbers and exact.
-/

namespace BlockScript

/-- The decimal number `digits · 10 ^ exponent`. -/
structure Decimal where
  /-- The significant digits, as a number. -/
  digits : Nat
  /-- The power of ten of the last digit. -/
  exponent : Int
deriving DecidableEq

/-- The same number without zeros at the end of its digits. -/
def Decimal.trim (d : Decimal) : Decimal :=
  if d.digits = 0 then d
  else if d.digits % 10 = 0 then Decimal.trim ⟨d.digits / 10, d.exponent + 1⟩
  else d
termination_by d.digits
decreasing_by omega

/-- A positive number `significand · 2 ^ exponent` with the gaps to its neighbours. -/
structure Binary where
  /-- The significand. -/
  significand : Nat
  /-- The power of two. -/
  exponent : Int
  /-- Whether the neighbour below is nearer than the one above. -/
  tightBelow : Bool

/-- The significand and exponent of a finite double, its sign aside. -/
def Double.toBinary (x : Double) : Binary :=
  if x.biased = 0 then ⟨x.fraction, -1074, false⟩
  else ⟨Double.hidden + x.fraction, x.biased - 1075, x.fraction = 0 && x.biased > 1⟩

namespace Binary

/-- The positive rational `2 ^ two · 10 ^ ten`, as a numerator and a denominator. -/
def scale (two ten : Int) : Nat × Nat :=
  (Nat.pow 2 two.toNat * Nat.pow 10 ten.toNat, Nat.pow 2 (-two).toNat * Nat.pow 10 (-ten).toNat)

/--
The power of ten of the first digit of the value.  The value is first raised by as many places as
make it one or more.
-/
def magnitude (b : Binary) : Int :=
  let places := Text.digitCount (Nat.pow 2 (-b.exponent).toNat)
  let (up, down) := scale b.exponent places
  (Text.digitCount (b.significand * up / down) : Int) - 1 - places

/--
The multiple of `10 ^ e` that reads back as `b`, if there is one; of two the nearer, and of two
equally near the greater.  Lengths are in quarters of the last binary place, so that the ends of the
interval are whole.  The ends belong to the interval when the significand is even.
-/
def nearest? (b : Binary) (e : Int) : Option Nat :=
  let (up, down) := scale (b.exponent - 2) (-e)
  let value := 4 * b.significand * up
  let low := (4 * b.significand - if b.tightBelow then 1 else 2) * up
  let high := (4 * b.significand + 2) * up
  let inside (d : Nat) : Bool :=
    if b.significand % 2 = 0 then low ≤ d * down && d * down ≤ high
    else low < d * down && d * down < high
  let d := value / down
  match inside d, inside (d + 1) with
  | false, false => none
  | true, false => some d
  | false, true => some (d + 1)
  | true, true => some (if 2 * (value - d * down) < down then d else d + 1)

/-- The decimal with the fewest digits that reads back as `b`, the nearest of those. -/
def shortest (b : Binary) : Decimal :=
  let top := b.magnitude
  let found := (List.range 18).findSome? fun (i : Nat) =>
    (b.nearest? (top - i)).map fun d => Decimal.trim ⟨d, top - i⟩
  found.getD ⟨0, 0⟩

end Binary

end BlockScript
