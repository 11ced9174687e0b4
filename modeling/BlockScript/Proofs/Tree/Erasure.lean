import BlockScript.Tree.Basic

/-!
# Trees up to notes and locations

A tree says more than a comparison of two trees may want.  `Tree.bare` drops the notes of
resolution, so that what is left is what a source can say.  `Tree.unplaced` drops the locations, so
that what is left does not depend on how a source is laid out.
-/

namespace BlockScript

/-! ## Notes -/

/-- The site without its context. -/
def Site.bare (s : Site) : Site := ⟨s.location, none⟩

namespace Tree

mutual

/-- The tree without the notes of resolution. -/
def bare : Tree → Tree
  | block site body => block site.bare (bareAll body)
  | declaration site name _ init => declaration site.bare name none init.bare
  | operation site op left right => operation site.bare op left.bare right.bare
  | identifier site name _ => identifier site.bare name none
  | literal site value _ => literal site.bare value none

/-- Trees without the notes of resolution. -/
def bareAll : List Tree → List Tree
  | [] => []
  | t :: ts => t.bare :: bareAll ts

end

end Tree

namespace Program

/-- The program without the notes of resolution. -/
def bare (p : Program) : Program := ⟨p.site.bare, Tree.bareAll p.body⟩

end Program

/-! ## Locations -/

/-- The site of a node that was not read from a source. -/
def Site.nowhere : Site := ⟨⟨"", 1, 1⟩, none⟩

/-- The site without its location. -/
def Site.unplaced (s : Site) : Site := ⟨Site.nowhere.location, s.context⟩

namespace Tree

mutual

/-- The tree without its locations. -/
def unplaced : Tree → Tree
  | block site body => block site.unplaced (unplacedAll body)
  | declaration site name slot init => declaration site.unplaced name slot init.unplaced
  | operation site op left right => operation site.unplaced op left.unplaced right.unplaced
  | identifier site name binding => identifier site.unplaced name binding
  | literal site value constant => literal site.unplaced value constant

/-- Trees without their locations. -/
def unplacedAll : List Tree → List Tree
  | [] => []
  | t :: ts => t.unplaced :: unplacedAll ts

end

end Tree

namespace Program

/-- The program without its locations. -/
def unplaced (p : Program) : Program := ⟨p.site.unplaced, Tree.unplacedAll p.body⟩

end Program

end BlockScript
