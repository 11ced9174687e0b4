import BlockScript.Number
import BlockScript.Text.Quoted

/-!
# Values

A slot of the machine holds a value.  A slot that nothing was stored in holds a hole.
-/

namespace BlockScript

/-- What a slot holds. -/
inductive Value where
  /-- Nothing was stored yet. -/
  | hole
  /-- A text. -/
  | string (s : String)
  /-- A number. -/
  | number (n : Number)
deriving DecidableEq

namespace Value

instance : Inhabited Value := ⟨hole⟩

/-- Whether the value is a hole. -/
def isHole : Value → Bool
  | hole => true
  | _ => false

/-- The kind of a value, in words. -/
def kindName : Value → String
  | hole => "hole"
  | string _ => "string"
  | number n => n.kindName

/-- The value as a double, if it is a number. -/
def toDouble? : Value → Option Double
  | number n => some n.toDouble
  | _ => none

/-- The value as programs print it. -/
def text : Value → String
  | hole => "<hole>"
  | string s => s
  | number n => n.text

/-- The value as dumps show it, with its kind in front. -/
def describe : Value → String
  | hole => "Hole"
  | string s => s!"String({Text.quoted s})"
  | number n => n.describe

end Value

end BlockScript
