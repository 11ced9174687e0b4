import BlockScript.Location
import BlockScript.Number

/-!
# Syntax trees

A program is a block of statements.  Resolution writes what it finds out into the tree: the context
of each node, the slot of each declaration, the binding of each identifier and the constant of each
number that needs one.  A tree fresh from the parser has none of these notes, and a tree built by
hand may have any.

Trees are more general than programs: any node may stand in any place.  Code generation refuses a
statement where an expression belongs, and the other way round.
-/

namespace BlockScript

/-- The four operations that can be run. -/
inductive Arithmetic where
  | add
  | sub
  | mul
  | div
deriving DecidableEq

/-- The operation on doubles. -/
def Arithmetic.apply : Arithmetic → Double → Double → Double
  | add => Double.add
  | sub => Double.sub
  | mul => Double.mul
  | div => Double.div

/-- A binary operator.  The two comparisons can be written but not run. -/
inductive Operator where
  | arithmetic (a : Arithmetic)
  | equal
  | notEqual
deriving DecidableEq

/-- The operator as it is written. -/
def Operator.symbol : Operator → String
  | arithmetic .add => "+"
  | arithmetic .sub => "-"
  | arithmetic .mul => "*"
  | arithmetic .div => "/"
  | equal => "=="
  | notEqual => "!="

/-- Where a variable is found at run time. -/
inductive Reach where
  /-- Among the global variables. -/
  | global
  /-- In the frame that many frames below the innermost. -/
  | frame (depth : Nat)
deriving DecidableEq

/-- What an identifier means: a slot of a context, and how to get there. -/
structure Binding where
  /-- The declaring context. -/
  context : Nat
  /-- The slot of the variable in it. -/
  slot : Nat
  /-- How code reaches the slot. -/
  reach : Reach
deriving DecidableEq

/-- What every node has: a location and, once resolved, a context. -/
structure Site where
  /-- The place in the source. -/
  location : Location
  /-- The context that the node belongs to. -/
  context : Option Nat := none
deriving DecidableEq

/-- A node of a syntax tree. -/
inductive Tree where
  /-- A block of statements in braces. -/
  | block (site : Site) (body : List Tree)
  /-- The declaration of a variable with its first value. -/
  | declaration (site : Site) (name : String) (slot : Option Nat) (init : Tree)
  /-- A binary operation. -/
  | operation (site : Site) (op : Operator) (left right : Tree)
  /-- A use of a variable. -/
  | identifier (site : Site) (name : String) (binding : Option Binding)
  /-- A number. -/
  | literal (site : Site) (value : Number) (constant : Option Nat)

/-- A whole program: the statements of its outermost block. -/
structure Program where
  /-- The site of the outermost block. -/
  site : Site
  /-- Its statements, in order. -/
  body : List Tree

namespace Tree

/-- What a node has in common with every other. -/
def site : Tree → Site
  | block s _ | declaration s _ _ _ | operation s _ _ _ | identifier s _ _ | literal s _ _ => s

/-- The place of a node in the source. -/
def location (t : Tree) : Location := t.site.location

/-- The kind of a node, in words. -/
def kindName : Tree → String
  | block .. => "block"
  | declaration .. => "variable declaration"
  | operation .. => "binary operation"
  | identifier .. => "identifier"
  | literal .. => "number literal"

/-- An operation at the place of its left operand. -/
def operate (op : Operator) (left right : Tree) : Tree :=
  operation ⟨left.location, none⟩ op left right

end Tree

/-- The outermost block as a node. -/
def Program.toTree (p : Program) : Tree := .block p.site p.body

end BlockScript
