/-!
# Sets of characters

A set of characters is kept as the increasing list of the code points at which membership changes:
the first bound opens the first range of members, the second closes it, and so on.  A character is
a member when an odd number of bounds lie at or below it.  Large sets from a character database fit
into such a list, and one binary search answers a query.
-/

namespace BlockScript.Text

/-- A set of characters, given by the code points at which membership changes. -/
structure CharSet where
  /-- The bounds, in increasing order: the first member of a range, then the first non-member. -/
  bounds : Array Nat

namespace CharSet

/-- The least index between `lo` and `hi` whose bound lies above `n`, by binary search. -/
def search (bounds : Array Nat) (n lo hi : Nat) : Nat :=
  if lo < hi then
    let mid := (lo + hi) / 2
    if bounds.getD mid 0 ≤ n then search bounds n (mid + 1) hi else search bounds n lo mid
  else lo
termination_by hi - lo
decreasing_by all_goals omega

/-- The number of bounds at or below `n`. -/
def rank (s : CharSet) (n : Nat) : Nat := search s.bounds n 0 s.bounds.size

/-- Whether the set has the character `c`. -/
def contains (s : CharSet) (c : Char) : Bool := s.rank c.toNat % 2 == 1

end CharSet

end BlockScript.Text
