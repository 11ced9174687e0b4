import BlockScript.Double.Read
import BlockScript.Token.Basic

/-!
# Numerals

A numeral is a run of digits, then a fraction if a digit follows the point, then an exponent if an
`e` follows.  Underscores may stand among the digits and mean nothing.  The parts are kept apart
here, so that the extent of a numeral and its value are two separate questions: `Numeral.split`
takes the longest numeral off a text, and `Numeral.kind` says what it denotes.
-/

namespace BlockScript

/-- The exponent of a numeral. -/
structure Numeral.Exponent where
  /-- The letter `e`, in either case. -/
  mark : Char
  /-- A plus or minus sign. -/
  sign : Option Char
  /-- Digits and underscores. -/
  digits : List Char
deriving DecidableEq

/-- A numeral, in its parts. -/
structure Numeral where
  /-- Digits and underscores before the point. -/
  whole : List Char
  /-- Digits and underscores behind the point. -/
  fraction : Option (List Char)
  /-- The exponent. -/
  exponent : Option Numeral.Exponent
deriving DecidableEq

namespace Numeral

/-- Whether `c` may stand in a run of digits. -/
def inRun (c : Char) : Bool := Text.isDigit c || c == '_'

/-- The digits of a run, its underscores left out. -/
def digitsOf (run : List Char) : List Char := run.filter (· != '_')

/-- A sign in front of a text, and the rest. -/
def splitSign : List Char → Option Char × List Char
  | '+' :: cs => (some '+', cs)
  | '-' :: cs => (some '-', cs)
  | cs => (none, cs)

/--
A fraction in front of a text, and the rest.  A point without a digit behind it is no fraction.
-/
def splitFraction (cs : List Char) : Option (List Char) × List Char :=
  match cs with
  | '.' :: d :: r =>
    if Text.isDigit d then (some ((d :: r).takeWhile inRun), (d :: r).dropWhile inRun)
    else (none, cs)
  | _ => (none, cs)

/-- An exponent in front of a text, and the rest. -/
def splitExponent (cs : List Char) : Option Exponent × List Char :=
  match cs with
  | [] => (none, cs)
  | m :: r =>
    if m == 'e' || m == 'E' then
      let (sign, r) := splitSign r
      (some ⟨m, sign, r.takeWhile inRun⟩, r.dropWhile inRun)
    else (none, cs)

/-- The longest numeral in front of a text that starts with a digit, and the rest. -/
def split (cs : List Char) : Numeral × List Char :=
  let f := splitFraction (cs.dropWhile inRun)
  let e := splitExponent f.2
  (⟨cs.takeWhile inRun, f.1, e.1⟩, e.2)

/-- The text of an exponent. -/
def Exponent.text (e : Exponent) : List Char := e.mark :: e.sign.toList ++ e.digits

/-- The text of a numeral. -/
def text (n : Numeral) : List Char :=
  n.whole ++ (n.fraction.elim [] ('.' :: ·)) ++ (n.exponent.elim [] Exponent.text)

/-- The value of an exponent; `none` if it has no digit. -/
def Exponent.value? (e : Exponent) : Option Int :=
  let ds := digitsOf e.digits
  if ds.isEmpty then none
  else
    let n : Int := Double.exponentValue ds
    some (if e.sign = some '-' then -n else n)

/-- The first integer that is too large for an integer literal. -/
def integerBound : Nat := 9223372036854775808

/--
What a numeral denotes.  With a fraction or an exponent it is a double; without, it is an integer,
and one that is too large is invalid.  An exponent without a digit is invalid.
-/
def kind (n : Numeral) : Token.Kind :=
  match n.fraction, n.exponent with
  | none, none =>
    let v := Text.digitsValue (digitsOf n.whole)
    if v < integerBound then .integer v else .invalid
  | f, none => .float (Double.ofParts (digitsOf n.whole) (digitsOf (f.getD [])) 0)
  | f, some e =>
    match e.value? with
    | none => .invalid
    | some x => .float (Double.ofParts (digitsOf n.whole) (digitsOf (f.getD [])) x)

/-! ## Extents -/

theorem splitSign_length_le (cs : List Char) : (splitSign cs).2.length ≤ cs.length := by
  unfold splitSign
  split <;> simp

theorem dropWhile_length_le (p : Char → Bool) (cs : List Char) :
    (cs.dropWhile p).length ≤ cs.length :=
  (List.dropWhile_sublist p).length_le

theorem splitFraction_length_le (cs : List Char) :
    (splitFraction cs).2.length ≤ cs.length := by
  unfold splitFraction
  split
  · split
    · have := dropWhile_length_le inRun
      exact Nat.le_succ_of_le (this _)
    · exact Nat.le_refl _
  · exact Nat.le_refl _

theorem splitExponent_length_le (cs : List Char) :
    (splitExponent cs).2.length ≤ cs.length := by
  unfold splitExponent
  split
  · exact Nat.le_refl _
  · rename_i m r
    split
    · have h := splitSign_length_le r
      have h' := dropWhile_length_le inRun (splitSign r).2
      simp only [List.length_cons]
      omega
    · exact Nat.le_refl _

/-- What is left behind a numeral that starts with a digit is shorter. -/
theorem split_length_lt {c : Char} (cs : List Char) (h : inRun c = true) :
    (split (c :: cs)).2.length < (c :: cs).length := by
  have h₁ := splitExponent_length_le (splitFraction ((c :: cs).dropWhile inRun)).2
  have h₂ := splitFraction_length_le ((c :: cs).dropWhile inRun)
  have h₃ := dropWhile_length_le inRun cs
  simp only [split, List.dropWhile_cons, h, if_true] at *
  simp only [List.length_cons]
  omega

end Numeral

end BlockScript
