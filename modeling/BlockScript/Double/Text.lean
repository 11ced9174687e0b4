import BlockScript.Double.Shortest

/-!
# The text of a double

A number is written with the fewest digits that read back.  Numbers of ordinary size are written
positionally and always show a digit after the point, so that they never look like integers; very
large and very small ones are written with an exponent.
-/

namespace BlockScript

/-- Where positional writing ends: the exponents of the first digit for which it is used. -/
structure Layout where
  /-- The least exponent that is written positionally. -/
  least : Int
  /-- The least exponent above it that is not. -/
  bound : Int

/-- Numbers from a ten-thousandth up to ten to the sixteenth are written positionally. -/
def Double.layout : Layout := ⟨-4, 16⟩

namespace Decimal

/-- The digits and, as an exponent of ten, the place of the first of them. -/
def scientific (d : Decimal) : List Char × Int :=
  let ds := Nat.toDigits 10 d.digits
  (ds, d.exponent + ds.length - 1)

/-- Positional text: at least one digit on each side of the point. -/
def positional (d : Decimal) : List Char :=
  let (ds, x) := d.scientific
  if x < 0 then '0' :: '.' :: List.replicate (-x - 1).toNat '0' ++ ds
  else
    let whole := x.toNat + 1
    let ds := ds ++ List.replicate (whole - ds.length) '0'
    let tail := ds.drop whole
    ds.take whole ++ '.' :: (if tail.isEmpty then ['0'] else tail)

/-- Text with an exponent: one digit before the point, and no point if there is one digit. -/
def exponential (d : Decimal) : List Char :=
  let (ds, x) := d.scientific
  let tail := ds.drop 1
  ds.take 1 ++ (if tail.isEmpty then [] else '.' :: tail) ++ 'e' :: (toString x).toList

/-- The text of a positive decimal in a layout. -/
def text (layout : Layout) (d : Decimal) : List Char :=
  let x := d.scientific.2
  if layout.least ≤ x && x < layout.bound then d.positional else d.exponential

end Decimal

/-- The text of a double, its sign aside. -/
def Double.magnitudeText (x : Double) : List Char :=
  if x.biased = 0 && x.fraction = 0 then ['0', '.', '0']
  else if x.biased = 2047 then ['i', 'n', 'f']
  else x.toBinary.shortest.text Double.layout

/-- The text of a double; a NaN shows no sign. -/
def Double.text (x : Double) : String :=
  if x.biased = 2047 && x.fraction ≠ 0 then "NaN"
  else String.ofList ((if x.isNegative then ['-'] else []) ++ x.magnitudeText)

end BlockScript
