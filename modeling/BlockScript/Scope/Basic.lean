import BlockScript.Scope.Numbering
import BlockScript.Tree.Basic

/-!
# Contexts

Every block of a program has a context: the variables that it declares, each with a slot.  The
contexts of a program form a forest.  `Scopes` keeps them in the order in which they were opened,
and a context knows its parent by its place.  A parent was opened before its children, so its place
is smaller; this is part of the type (`Scopes.parent_lt`), and the walks from a context to its
ancestors end because of it.

A context without a parent is global.  Its slots are the global variables, and it holds the
constants of all code below it.
-/

namespace BlockScript

/-- The names of a block. -/
structure Context where
  /-- The context of the block around it. -/
  parent : Option Nat
  /-- The place of the block. -/
  owner : Location
  /-- The variables; the number of a variable is its slot. -/
  names : Numbering String := ∅
  /-- The constants, used if the context is global. -/
  constants : Numbering Number := ∅

namespace Context

/-- Whether the variables of the context are global. -/
def isGlobal (c : Context) : Bool := c.parent.isNone

/-- The number of slots in use. -/
def slotCount (c : Context) : Nat := c.names.size

/-- The slot of a variable. -/
def slotOf? (c : Context) (name : String) : Option Nat := c.names.find? name

/-- The variables with their slots, by slot. -/
def slots (c : Context) : List (String × Nat) := c.names.entries.toList.zipIdx

/-- The context with one more variable, in the next free slot. -/
def addVariable (c : Context) (name : String) : Context :=
  { c with names := c.names.push name }

/-- The context with one more constant. -/
def addConstant (c : Context) (value : Number) : Context :=
  { c with constants := c.constants.push value }

end Context

/-- The contexts of a program, in the order in which they were opened. -/
structure Scopes where
  /-- The contexts. -/
  contexts : Array Context
  /-- A parent comes before its children. -/
  parent_lt : ∀ (i : Nat) (h : i < contexts.size) (p : Nat),
    contexts[i].parent = some p → p < i

namespace Scopes

/-- No contexts. -/
def empty : Scopes where
  contexts := #[]
  parent_lt := by simp

instance : EmptyCollection Scopes := ⟨empty⟩

/-- The number of contexts, and so the place of the next. -/
def size (s : Scopes) : Nat := s.contexts.size

/-- The context at a place. -/
def find? (s : Scopes) (i : Nat) : Option Context := s.contexts[i]?

/-- The first context. -/
def global? (s : Scopes) : Option Context := s.find? 0

/-- Opens a context below `parent`.  A parent that does not exist counts as none. -/
def push (s : Scopes) (parent : Option Nat) (owner : Location) : Scopes where
  contexts := s.contexts.push ⟨parent.filter (· < s.size), owner, ∅, ∅⟩
  parent_lt i h p hp := by
    rw [Array.getElem_push] at hp
    split at hp
    · exact s.parent_lt i _ p hp
    · have hp' : p < s.contexts.size := of_decide_eq_true (Option.filter_eq_some_iff.1 hp).2
      simp only [Array.size_push] at h
      omega

/-- Changes one context, but not its parent. -/
def modify (s : Scopes) (i : Nat) (f : Context → Context) (hf : ∀ c, (f c).parent = c.parent) :
    Scopes where
  contexts := s.contexts.modify i f
  parent_lt j h p hp := by
    simp only [Array.size_modify] at h
    rw [Array.getElem_modify] at hp
    split at hp
    · exact s.parent_lt j h p ((hf _).symm.trans hp)
    · exact s.parent_lt j h p hp

/--
Declares a variable in a context.  It keeps the slot it has, or takes the next free one; the slot is
given back with the contexts.
-/
def declare (s : Scopes) (i : Nat) (name : String) : Scopes × Nat :=
  match s.find? i with
  | none => (s, 0)
  | some c =>
    match c.slotOf? name with
    | some slot => (s, slot)
    | none =>
      let slot := c.slotCount
      (s.modify i (·.addVariable name) (fun _ => rfl), slot)

/-- What a name means in the context `i`, `depth` frames above the place of its use. -/
def lookupFrom (s : Scopes) (depth i : Nat) (name : String) : Option Binding :=
  if h : i < s.contexts.size then
    match s.contexts[i].slotOf? name with
    | some slot =>
      some ⟨i, slot, if s.contexts[i].isGlobal then .global else .frame depth⟩
    | none =>
      match hp : s.contexts[i].parent with
      | some p => s.lookupFrom (depth + 1) p name
      | none => none
  else none
termination_by i
decreasing_by exact s.parent_lt i h p hp

/-- What a name means in the context `i`: the variable of the nearest context that declares it. -/
def lookup (s : Scopes) (i : Nat) (name : String) : Option Binding := s.lookupFrom 0 i name

/-- The outermost context around the context `i`. -/
def root (s : Scopes) (i : Nat) : Nat :=
  if h : i < s.contexts.size then
    match hp : s.contexts[i].parent with
    | some p => s.root p
    | none => i
  else i
termination_by i
decreasing_by exact s.parent_lt i h p hp

/--
Adds a constant for code in the context `i`, to the pool of the outermost context around it.  If
`dedupe` holds, a constant that is there already serves again.  The place in the pool is given back
with the contexts.
-/
def register (s : Scopes) (dedupe : Bool) (i : Nat) (value : Number) : Scopes × Nat :=
  let r := s.root i
  match s.find? r with
  | none => (s, 0)
  | some c =>
    match if dedupe then c.constants.find? value else none with
    | some place => (s, place)
    | none =>
      let place := c.constants.size
      (s.modify r (·.addConstant value) (fun _ => rfl), place)

/-- The pool of the first context. -/
def constants (s : Scopes) : Array Number := s.global?.elim #[] (·.constants.entries)

/-- The slot of a variable of the first context. -/
def globalSlot? (s : Scopes) (name : String) : Option Nat := s.global?.bind (·.slotOf? name)

end Scopes

end BlockScript
