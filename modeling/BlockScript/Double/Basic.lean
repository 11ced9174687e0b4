/-!
# Double precision numbers

A number of the language is a binary floating point number of 64 bits, and here it *is* its 64
bits.  Two numbers are the same exactly when their bits are: the two zeros differ, and a NaN equals
itself and no NaN with other bits.  Constants are shared by this equality.  Arithmetic is that of
`Float`.
-/

namespace BlockScript

/-- A double precision number, as its bit pattern. -/
structure Double where
  /-- One bit of sign, eleven of exponent, fifty-two of fraction. -/
  bits : UInt64
deriving DecidableEq, Hashable

namespace Double

/-- The number as the arithmetic sees it. -/
def toFloat (x : Double) : Float := Float.ofBits x.bits

/-- The bits of a result of arithmetic. -/
def ofFloat (x : Float) : Double := ⟨x.toBits⟩

/-- The nearest double to an integer, a tie going to the even one. -/
def ofInt (n : Int) : Double := ofFloat (Float.ofInt n)

/-- The sum, rounded. -/
def add (x y : Double) : Double := ofFloat (x.toFloat + y.toFloat)

/-- The difference, rounded. -/
def sub (x y : Double) : Double := ofFloat (x.toFloat - y.toFloat)

/-- The product, rounded. -/
def mul (x y : Double) : Double := ofFloat (x.toFloat * y.toFloat)

/-- The quotient, rounded; a division by zero gives an infinity or a NaN. -/
def div (x y : Double) : Double := ofFloat (x.toFloat / y.toFloat)

/-- The weight of the first bit that is not in the fraction: two to the power 52. -/
def hidden : Nat := 4503599627370496

/-- Whether the sign bit is set. -/
def isNegative (x : Double) : Bool := 2048 * hidden ≤ x.bits.toNat

/-- The exponent field. -/
def biased (x : Double) : Nat := x.bits.toNat / hidden % 2048

/-- The fraction field. -/
def fraction (x : Double) : Nat := x.bits.toNat % hidden

/-- Positive infinity. -/
def infinity : Double := ⟨0x7FF0000000000000⟩

/-- The number with its sign bit flipped. -/
def neg (x : Double) : Double := ⟨x.bits ^^^ 0x8000000000000000⟩

end Double

end BlockScript
