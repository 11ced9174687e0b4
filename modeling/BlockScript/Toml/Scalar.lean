import BlockScript.Double.Read
import BlockScript.Toml.Table

/-!
# Values without quotes

Numbers, truth values, dates and times are written as one word.  A word is read as a whole, so a
value with anything left over is no value.
-/

namespace BlockScript.Toml

open Text (isDigit digitsValue)

/-! ## Numbers -/

/-- The digits of a run in which single underscores may stand between digits. -/
def digitRun? (isD : Char → Bool) : List Char → Option (List Char)
  | [] => none
  | [c] => if isD c then some [c] else none
  | c :: '_' :: cs => if isD c then (digitRun? isD cs).map (c :: ·) else none
  | c :: cs => if isD c then (digitRun? isD cs).map (c :: ·) else none

/-- The digits of a run that does not start with a zero, unless it is one. -/
def wholeRun? (cs : List Char) : Option (List Char) :=
  match cs with
  | '0' :: _ :: _ => none
  | _ => digitRun? isDigit cs

/-- A sign in front of a word, and the rest. -/
def splitSign : List Char → Bool × List Char
  | '-' :: cs => (true, cs)
  | '+' :: cs => (false, cs)
  | cs => (false, cs)

/-- The value of digits in a base up to sixteen. -/
def valueIn (base : Nat) (ds : List Char) : Nat :=
  let value (c : Char) : Nat :=
    if isDigit c then c.toNat - '0'.toNat else c.toLower.toNat - 'a'.toNat + 10
  ds.foldl (fun n c => base * n + value c) 0

/-- The greatest integer of the format, which has 64 bits. -/
def maxInteger : Nat := 9223372036854775807

/-- An integer in decimal or, behind a mark, in base sixteen, eight or two. -/
def integer? (cs : List Char) : Option Int :=
  let isHex (c : Char) : Bool := isDigit c || ('a' ≤ c.toLower && c.toLower ≤ 'f')
  let bounded (n : Int) : Option Int :=
    if -(maxInteger : Int) - 1 ≤ n && n ≤ maxInteger then some n else none
  match cs with
  | '0' :: 'x' :: ds => (digitRun? isHex ds).bind fun ds => bounded (valueIn 16 ds)
  | '0' :: 'o' :: ds =>
    (digitRun? (fun c => '0' ≤ c && c ≤ '7') ds).bind fun ds => bounded (valueIn 8 ds)
  | '0' :: 'b' :: ds =>
    (digitRun? (fun c => c == '0' || c == '1') ds).bind fun ds => bounded (valueIn 2 ds)
  | cs =>
    let (negative, ds) := splitSign cs
    (wholeRun? ds).bind fun ds =>
      let n : Int := digitsValue ds
      bounded (if negative then -n else n)

/-- The fraction digits and the exponent of a number with at least one of them. -/
def fractionAndExponent? (cs : List Char) : Option (List Char × Int) :=
  let isMark (c : Char) : Bool := c == 'e' || c == 'E'
  let exponent? (cs : List Char) : Option Int :=
    let (negative, ds) := splitSign cs
    (digitRun? isDigit ds).map fun ds =>
      let n : Int := Double.exponentValue ds
      if negative then -n else n
  match cs with
  | '.' :: cs =>
    (digitRun? isDigit (cs.takeWhile (!isMark ·))).bind fun fraction =>
      match cs.dropWhile (!isMark ·) with
      | [] => some (fraction, 0)
      | _ :: cs => (exponent? cs).map (fraction, ·)
  | c :: cs => if isMark c then (exponent? cs).map ([], ·) else none
  | [] => none

/--
A number with a fraction or an exponent, an infinity or a NaN.  A positive number that is too large
is refused.
-/
def float? (cs : List Char) : Option Double :=
  let (negative, cs) := splitSign cs
  let signed (x : Double) : Double := if negative then x.neg else x
  if cs = ['i', 'n', 'f'] then some (signed .infinity)
  else if cs = ['n', 'a', 'n'] then some (signed ⟨0x7FF8000000000000⟩)
  else
    let inWhole (c : Char) : Bool := isDigit c || c == '_'
    (wholeRun? (cs.takeWhile inWhole)).bind fun whole =>
    (fractionAndExponent? (cs.dropWhile inWhole)).bind fun (fraction, exponent) =>
      let x := signed (Double.ofParts whole fraction exponent)
      if x = .infinity then none else some x

/-! ## Dates and times -/

/-- A number of two digits between two bounds. -/
def twoDigits? (lo hi : Nat) (a b : Char) : Option Nat :=
  let n := digitsValue [a, b]
  if isDigit a && isDigit b && lo ≤ n && n ≤ hi then some n else none

/-- The number of days of a month. -/
def daysIn (year month : Nat) : Nat :=
  if month = 2 then
    if year % 4 = 0 && (year % 100 ≠ 0 || year % 400 = 0) then 29 else 28
  else if month = 4 || month = 6 || month = 9 || month = 11 then 30
  else 31

/-- Takes a date off the front of a word. -/
def date? : List Char → Option (List Char)
  | a :: b :: c :: d :: '-' :: e :: f :: '-' :: g :: h :: rest =>
    if [a, b, c, d].all isDigit then
      (twoDigits? 1 12 e f).bind fun month =>
      (twoDigits? 1 (daysIn (digitsValue [a, b, c, d]) month) g h).map fun _ => rest
    else none
  | _ => none

/-- Takes a time off the front of a word. -/
def time? : List Char → Option (List Char)
  | a :: b :: ':' :: c :: d :: ':' :: e :: f :: rest =>
    (twoDigits? 0 23 a b).bind fun _ =>
    (twoDigits? 0 59 c d).bind fun _ =>
    (twoDigits? 0 60 e f).bind fun _ =>
    match rest with
    | '.' :: r =>
      if (r.takeWhile isDigit).isEmpty then none else some (r.dropWhile isDigit)
    | _ => some rest
  | _ => none

/-- Whether a word is a distance from universal time, or nothing. -/
def isOffset : List Char → Bool
  | [] | ['Z'] | ['z'] => true
  | [s, a, b, ':', c, d] =>
    (s == '+' || s == '-') && (twoDigits? 0 23 a b).isSome && (twoDigits? 0 59 c d).isSome
  | _ => false

/-- Whether a word is a time with or without an offset. -/
def isOffsetTime (cs : List Char) : Bool := (time? cs).any isOffset

/-- Whether a word is a date alone. -/
def isDate (cs : List Char) : Bool := (date? cs).any List.isEmpty

/-- Whether a word is a date, a time or both. -/
def isDateOrTime (cs : List Char) : Bool :=
  (time? cs).any List.isEmpty ||
  match date? cs with
  | none => false
  | some [] => true
  | some (c :: rest) => (c == 'T' || c == 't') && isOffsetTime rest

/-! ## Words -/

/-- The value of a word. -/
def scalar? (cs : List Char) : Option Node :=
  if cs = ['t', 'r', 'u', 'e'] then some (.boolean true)
  else if cs = ['f', 'a', 'l', 's', 'e'] then some (.boolean false)
  else if isDateOrTime cs then some (.date (String.ofList cs))
  else
    match integer? cs with
    | some n => some (.integer n)
    | none => (float? cs).map .float

end BlockScript.Toml
