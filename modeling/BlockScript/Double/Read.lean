import BlockScript.Double.Basic
import BlockScript.Text.Digits

/-!
# Reading doubles

A decimal denotes the double nearest to it, a tie going to the even one; what is too large denotes
an infinity and what is too small a zero.  `ofDecimal` decides the two extreme cases by the place of
the first digit, so that a large exponent costs nothing.  The exponent as written is bounded
(`exponentValue`): only behind tens of thousands of digits does this show.
-/

namespace BlockScript.Double

/-- The double nearest to `digits · 10 ^ exponent`. -/
def ofDecimal (digits : Nat) (exponent : Int) : Double :=
  let top := exponent + Text.digitCount digits
  if digits = 0 || top < -330 then ⟨0⟩
  else if 310 < top then infinity
  else ofFloat (Float.ofScientific digits (exponent < 0) exponent.natAbs)

/-- The double that the parts of a decimal denote: whole digits, fraction digits and an exponent. -/
def ofParts (whole fraction : List Char) (exponent : Int) : Double :=
  ofDecimal (Text.digitsValue (whole ++ fraction)) (exponent - fraction.length)

/-- The size from which on an exponent does not grow. -/
def exponentLimit : Nat := 65536

/--
The number that the digits of an exponent denote.  No digit is read once the number has reached the
limit, so leading zeros are free and a long exponent stays small.
-/
def exponentValue (ds : List Char) : Nat :=
  ds.foldl (fun n c => if n < exponentLimit then 10 * n + Text.digitValue c else n) 0

/-- An exponent: an optional sign and digits, up to the end. -/
def exponent? (cs : List Char) : Option Int :=
  let (sign, ds) := match cs with
    | '-' :: ds => (-1, ds)
    | '+' :: ds => (1, ds)
    | ds => ((1 : Int), ds)
  if !ds.isEmpty && ds.all Text.isDigit then some (sign * exponentValue ds) else none

/-- A number without a sign: a word for an infinity or a NaN, or a decimal. -/
def magnitude? (cs : List Char) : Option Double :=
  let word := String.ofList (cs.map Char.toLower)
  if word == "inf" || word == "infinity" then some infinity
  else if word == "nan" then some ⟨0x7FF8000000000000⟩
  else
    let whole := cs.takeWhile Text.isDigit
    let rest := cs.dropWhile Text.isDigit
    let (fraction, rest) := match rest with
      | '.' :: r => (r.takeWhile Text.isDigit, r.dropWhile Text.isDigit)
      | r => ([], r)
    if whole.isEmpty && fraction.isEmpty then none
    else match rest with
      | [] => some (ofParts whole fraction 0)
      | c :: r =>
        if c == 'e' || c == 'E' then (exponent? r).map (ofParts whole fraction) else none

/-- Reads a number: an optional sign, then a word or a decimal. -/
def ofText? (s : String) : Option Double :=
  match s.toList with
  | '-' :: cs => (magnitude? cs).map neg
  | '+' :: cs => magnitude? cs
  | cs => magnitude? cs

end BlockScript.Double
