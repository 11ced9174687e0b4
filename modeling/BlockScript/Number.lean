import BlockScript.Double.Text

/-!
# Numbers

A number literal is an integer or a double, and so is a constant of a program.  An integer and a
double are never the same number, and doubles are the same when their bits are.
-/

namespace BlockScript

/-- An integer or a double. -/
inductive Number where
  | integer (n : Int)
  | float (x : Double)
deriving DecidableEq, Hashable

namespace Number

/-- The kind of a number, in words. -/
def kindName : Number → String
  | integer _ => "integer"
  | float _ => "float"

/-- The number as programs print it. -/
def text : Number → String
  | integer n => toString n
  | float x => x.text

/-- The number as listings show it, with its kind in front. -/
def describe : Number → String
  | integer n => s!"Integer({n})"
  | float x => s!"Float({x.text})"

/-- The number as a double. -/
def toDouble : Number → Double
  | integer n => Double.ofInt n
  | float x => x

/-- Whether an integer fits into the operand of an instruction, which has 32 bits. -/
def fitsOperand (n : Int) : Bool := -2147483648 ≤ n && n ≤ 2147483647

/-- The integer that stands in the code itself; `none` for a number that needs a constant. -/
def inline? : Number → Option Int
  | integer n => if fitsOperand n then some n else none
  | float _ => none

end Number

end BlockScript
