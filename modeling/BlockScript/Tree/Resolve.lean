import BlockScript.Scope.Basic

/-!
# Resolution

Resolution walks over a tree from the top, a node before its parts and parts from left to right.
It opens a context for every block, gives every declared variable a slot, finds what every
identifier means, and hoists the numbers that do not fit into an instruction into the pool of
constants.  All of it is written into the tree.

A variable is declared before its own initial value is looked at, so `var a = a` means itself.

The walk stops at the first identifier that no context around it declares.  The tree is given back
also then: it has the notes made so far, and behind that identifier it is as it was.
-/

namespace BlockScript

/-- An identifier that nothing around it declares. -/
structure Undeclared where
  /-- The name. -/
  name : String
  /-- The place of its use. -/
  location : Location
deriving DecidableEq

/-- The error in words. -/
def Undeclared.message (e : Undeclared) : String :=
  s!"ResolutionError: undeclared identifier '{e.name}' at {e.location.text}"

/-- What the walk did, in the order in which it did it. -/
inductive Finding where
  /-- A declaration got its slot. -/
  | declared (name : String) (slot context : Nat)
  /-- A number got its place in the pool. -/
  | hoisted (place : Nat) (value : Number)
deriving DecidableEq

/-- The state of the walk. -/
structure Walk where
  /-- The contexts opened so far. -/
  scopes : Scopes := ∅
  /-- What was done so far. -/
  findings : Array Finding := #[]

namespace Walk

/-- Opens the context of a block. -/
def enter (w : Walk) (parent : Option Nat) (owner : Location) : Walk :=
  { w with scopes := w.scopes.push parent owner }

/-- Declares a variable, and gives its slot. -/
def declare (w : Walk) (context : Nat) (name : String) : Walk × Nat :=
  let (scopes, slot) := w.scopes.declare context name
  (⟨scopes, w.findings.push (.declared name slot context)⟩, slot)

/-- Puts a number into the pool, and gives its place. -/
def hoist (w : Walk) (dedupe : Bool) (context : Nat) (value : Number) : Walk × Nat :=
  let (scopes, place) := w.scopes.register dedupe context value
  (⟨scopes, w.findings.push (.hoisted place value)⟩, place)

end Walk

/-- A walk's result: what it walked over with notes, its state, and the error that stopped it. -/
structure Resolved (α : Type) where
  /-- What was walked over. -/
  value : α
  /-- The state at the end. -/
  walk : Walk
  /-- The error, if there was one. -/
  error : Option Undeclared := none

/-- The site in a context. -/
def Site.within (s : Site) (context : Nat) : Site := { s with context := some context }

mutual

/-- Resolves a node in the context `active`. -/
def Tree.resolve (dedupe : Bool) (active : Nat) : Tree → Walk → Resolved Tree
  | .block site body, w =>
    let id := w.scopes.size
    let r := Tree.resolveAll dedupe id [] body (w.enter (some active) site.location)
    ⟨.block (site.within id) r.value, r.walk, r.error⟩
  | .declaration site name _ init, w =>
    let (w, slot) := w.declare active name
    let r := Tree.resolve dedupe active init w
    ⟨.declaration (site.within active) name (some slot) r.value, r.walk, r.error⟩
  | .operation site op left right, w =>
    let l := Tree.resolve dedupe active left w
    match l.error with
    | some e => ⟨.operation (site.within active) op l.value right, l.walk, some e⟩
    | none =>
      let r := Tree.resolve dedupe active right l.walk
      ⟨.operation (site.within active) op l.value r.value, r.walk, r.error⟩
  | .identifier site name binding, w =>
    match w.scopes.lookup active name with
    | some b => ⟨.identifier (site.within active) name (some b), w, none⟩
    | none => ⟨.identifier (site.within active) name binding, w, some ⟨name, site.location⟩⟩
  | .literal site value constant, w =>
    match value.inline? with
    | some _ => ⟨.literal (site.within active) value constant, w, none⟩
    | none =>
      let (w, place) := w.hoist dedupe active value
      ⟨.literal (site.within active) value (some place), w, none⟩

/-- Resolves statements in order, behind those already `done`, the last first. -/
def Tree.resolveAll (dedupe : Bool) (active : Nat) (done : List Tree) :
    List Tree → Walk → Resolved (List Tree)
  | [], w => ⟨done.reverse, w, none⟩
  | t :: ts, w =>
    let r := Tree.resolve dedupe active t w
    match r.error with
    | some e => ⟨done.reverseAux (r.value :: ts), r.walk, some e⟩
    | none => Tree.resolveAll dedupe active (r.value :: done) ts r.walk

end

/-- Resolves a program.  Its outermost block has the first context, which is global. -/
def Program.resolve (dedupe : Bool) (p : Program) : Resolved Program :=
  let r := Tree.resolveAll dedupe 0 [] p.body (({} : Walk).enter none p.site.location)
  ⟨⟨p.site.within 0, r.value⟩, r.walk, r.error⟩

end BlockScript
