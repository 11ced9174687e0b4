import BlockScript.Machine.Value

/-!
# Slots

A list of slots is a map from slot numbers to values that is a hole almost everywhere.  Only the
values up to the last slot ever stored are kept.
-/

namespace BlockScript

/-- Numbered slots; those behind the end are holes. -/
structure Slots where
  /-- The values of the first slots. -/
  cells : Array Value := #[]
deriving DecidableEq

namespace Slots

instance : EmptyCollection Slots := ⟨{}⟩

/-- The number of slots that are kept. -/
def size (s : Slots) : Nat := s.cells.size

/-- The value of a slot. -/
def read (s : Slots) (i : Nat) : Value := s.cells.getD i .hole

/-- Stores a value.  The slots between the end and `i` become holes. -/
def store (s : Slots) (i : Nat) (v : Value) : Slots :=
  if i < s.cells.size then ⟨s.cells.setIfInBounds i v⟩
  else ⟨(s.cells ++ Array.replicate (i - s.cells.size) Value.hole).push v⟩

/-- The last store to a slot is what it holds. -/
theorem read_store (s : Slots) (i j : Nat) (v : Value) :
    (s.store i v).read j = if i = j then v else s.read j := by
  unfold store read
  split
  · rename_i h
    simp only [Array.getD_eq_getD_getElem?, Array.getElem?_setIfInBounds]
    split
    · simp
    · rfl
  · rename_i h
    have h : s.cells.size ≤ i := Nat.le_of_not_lt h
    simp only [Array.getD_eq_getD_getElem?, Array.getElem?_push, Array.size_append,
      Array.size_replicate, Array.getElem?_append, Array.getElem?_replicate]
    grind

/-- Storing keeps every slot up to the one stored. -/
theorem size_store (s : Slots) (i : Nat) (v : Value) :
    (s.store i v).size = max s.size (i + 1) := by
  unfold store size
  split
  · simp; omega
  · simp; omega

end Slots

end BlockScript
