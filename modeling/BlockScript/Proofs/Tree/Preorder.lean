import BlockScript.Proofs.Scope.Representation
import BlockScript.Proofs.Tree.Resolution

/-!
# Resolution as one pass over the nodes

A tree lists its nodes in pre-order: a node before its parts, and parts from left to right.  In the
list (`Tree.nodes`) a node has no parts any more, but it knows the blocks around it, the innermost
first.  A block is known by its number, which is how many blocks come before it.

Resolution is a recursion over the tree, and what it does at a node depends on the arena there.
`Program.resolve_pass` says that it is one pass over the list.  At each node the pass writes notes,
hands a request to the arena, or stops with an error, and all three are read off the node and the
arena so far.
-/

namespace BlockScript

/-! ## Nodes -/

/-- A node without its parts. -/
inductive Label where
  | block (site : Site)
  | declaration (site : Site) (name : String) (slot : Option Nat)
  | operation (site : Site) (op : Operator)
  | identifier (site : Site) (name : String) (binding : Option Binding)
  | literal (site : Site) (value : Number) (constant : Option Nat)
deriving DecidableEq

/-- What a node has in common with every other. -/
def Label.site : Label → Site
  | block s | declaration s _ _ | operation s _ | identifier s _ _ | literal s _ _ => s

/-- A node in its place. -/
structure Node where
  /-- The node without its parts. -/
  label : Label
  /-- The numbers of the blocks around it, the innermost first. -/
  around : List Nat
deriving DecidableEq

namespace Node

/-- Whether the node is a block. -/
def isBlock (n : Node) : Bool :=
  match n.label with
  | .block _ => true
  | .declaration .. | .operation .. | .identifier .. | .literal .. => false

/-- The number of the nearest block around the node. -/
def home (n : Node) : Nat := n.around.headD 0

end Node

namespace Tree

mutual

/-- The nodes of a tree in pre-order.  The tree stands in the blocks `around`, and `next` blocks
come before it. -/
def nodes (around : List Nat) (next : Nat) : Tree → List Node
  | block site body => ⟨.block site, around⟩ :: nodesAll (next :: around) (next + 1) body
  | declaration site name slot init =>
    ⟨.declaration site name slot, around⟩ :: init.nodes around next
  | operation site op left right =>
    let first := left.nodes around next
    ⟨.operation site op, around⟩ ::
      (first ++ right.nodes around (next + first.countP Node.isBlock))
  | identifier site name binding => [⟨.identifier site name binding, around⟩]
  | literal site value constant => [⟨.literal site value constant, around⟩]

/-- The nodes of statements in pre-order. -/
def nodesAll (around : List Nat) (next : Nat) : List Tree → List Node
  | [] => []
  | t :: ts =>
    let first := t.nodes around next
    first ++ nodesAll around (next + first.countP Node.isBlock) ts

end

end Tree

/-- The nodes of a program in pre-order, the outermost block first. -/
def Program.nodes (p : Program) : List Node := p.toTree.nodes [] 0

theorem Program.nodes_eq (p : Program) :
    p.nodes = ⟨.block p.site, []⟩ :: Tree.nodesAll [0] 1 p.body := by
  rw [nodes, toTree, Tree.nodes]

/-! ## The pass -/

namespace Node

/-- What the node asks of the arena. -/
def request? (share : Bool) (n : Node) : Option Request :=
  match n.label with
  | .block site => some (.push n.around.head? site.location)
  | .declaration _ name _ => n.around.head?.map (.declare · name)
  | .literal _ value _ =>
    if value.inline?.isSome then none else n.around.head?.map (.register share · value)
  | .operation .. | .identifier .. => none

/-- The arena behind the node. -/
def serve (share : Bool) (s : Scopes) (n : Node) : Scopes :=
  (n.request? share).elim s fun q => (s.serve q).1

/-- The error at the node: a name that the arena does not know there. -/
def undeclared? (s : Scopes) (n : Node) : Option Undeclared :=
  match n.label with
  | .identifier site name _ =>
    if (s.lookup n.home name).isSome then none else some ⟨name, site.location⟩
  | .block .. | .declaration .. | .operation .. | .literal .. => none

/-- The node with its notes. -/
def noted (share : Bool) (s : Scopes) (n : Node) : Node :=
  { n with
    label := match n.label with
      | .block site => .block (site.within s.size)
      | .declaration site name _ =>
        .declaration (site.within n.home) name (some (s.declare n.home name).2)
      | .operation site op => .operation (site.within n.home) op
      | .identifier site name binding =>
        .identifier (site.within n.home) name ((s.lookup n.home name).or binding)
      | .literal site value constant =>
        .literal (site.within n.home) value
          (if value.inline?.isSome then constant else some (s.register share n.home value).2) }

@[simp] theorem isBlock_noted (share : Bool) (s : Scopes) (n : Node) :
    (n.noted share s).isBlock = n.isBlock := by
  obtain ⟨label, around⟩ := n
  cases label with
  | _ => rfl

theorem noted_block (share : Bool) (s : Scopes) {n : Node} (h : n.isBlock = true) :
    n.noted share s = ⟨.block (n.label.site.within s.size), n.around⟩ := by
  obtain ⟨label, around⟩ := n
  cases label with
  | block site => rfl
  | _ => cases h

theorem site_noted (share : Bool) (s : Scopes) {n : Node} (h : n.isBlock = false) :
    (n.noted share s).label.site = n.label.site.within n.home := by
  obtain ⟨label, around⟩ := n
  cases label with
  | block site => cases h
  | _ => rfl

/-- A block opens a context, and nothing else does. -/
theorem size_serve (share : Bool) (s : Scopes) (n : Node) :
    (n.serve share s).size = s.size + if n.isBlock then 1 else 0 := by
  obtain ⟨label, around⟩ := n
  cases label with
  | block _ => exact s.size_serve _
  | operation _ _ | identifier _ _ _ => rfl
  | declaration site name slot =>
      cases around with
      | nil => rfl
      | cons b outer => exact s.size_serve (.declare b name)
  | literal site value constant =>
      simp only [serve, request?]
      split
      next => rfl
      next =>
        cases around with
        | nil => rfl
        | cons b outer => exact s.size_serve (.register share b value)

end Node

/-- What a pass over nodes leaves: the nodes with their notes, the arena, and the error that stopped
it. -/
structure Pass where
  /-- The nodes. -/
  nodes : List Node
  /-- The arena. -/
  scopes : Scopes
  /-- The error, if there was one. -/
  error : Option Undeclared

namespace Pass

/-- The pass over nodes, one after the other.  Behind an error the nodes stay as they are. -/
def along (share : Bool) (s : Scopes) : List Node → Pass
  | [] => ⟨[], s, none⟩
  | n :: ns =>
    match n.undeclared? s with
    | some e => ⟨n.noted share s :: ns, s, some e⟩
    | none =>
      let r := along share (n.serve share s) ns
      ⟨n.noted share s :: r.nodes, r.scopes, r.error⟩

theorem along_cons {share : Bool} {s : Scopes} {n : Node} (h : n.undeclared? s = none)
    (ns : List Node) :
    along share s (n :: ns) =
      ⟨n.noted share s :: (along share (n.serve share s) ns).nodes,
        (along share (n.serve share s) ns).scopes, (along share (n.serve share s) ns).error⟩ := by
  simp only [along, h]

theorem along_cons_error {share : Bool} {s : Scopes} {n : Node} {e : Undeclared}
    (h : n.undeclared? s = some e) (ns : List Node) :
    along share s (n :: ns) = ⟨n.noted share s :: ns, s, some e⟩ := by
  simp only [along, h]

/-- A pass goes on with more nodes, unless it has stopped. -/
theorem along_append (share : Bool) (ns more : List Node) : ∀ s : Scopes,
    along share s (ns ++ more) =
      match (along share s ns).error with
      | some e => ⟨(along share s ns).nodes ++ more, (along share s ns).scopes, some e⟩
      | none =>
        ⟨(along share s ns).nodes ++ (along share (along share s ns).scopes more).nodes,
          (along share (along share s ns).scopes more).scopes,
          (along share (along share s ns).scopes more).error⟩ := by
  induction ns with
  | nil => exact fun s => rfl
  | cons n ns ih =>
      intro s
      rw [List.cons_append]
      cases h : n.undeclared? s with
      | some e => rw [along_cons_error h, along_cons_error h]; rfl
      | none =>
          rw [along_cons h, along_cons h, ih]
          cases (along share (n.serve share s) ns).error with
          | some e => rfl
          | none => rfl

theorem countP_nodes (share : Bool) (ns : List Node) : ∀ s : Scopes,
    (along share s ns).nodes.countP Node.isBlock = ns.countP Node.isBlock := by
  induction ns with
  | nil => exact fun s => rfl
  | cons n ns ih =>
      intro s
      cases h : n.undeclared? s with
      | some e => rw [along_cons_error h, List.countP_cons, List.countP_cons, Node.isBlock_noted]
      | none => rw [along_cons h, List.countP_cons, List.countP_cons, Node.isBlock_noted, ih]

theorem size_scopes {share : Bool} {ns : List Node} : ∀ {s : Scopes},
    (along share s ns).error = none →
    (along share s ns).scopes.size = s.size + ns.countP Node.isBlock := by
  induction ns with
  | nil => exact fun _ => rfl
  | cons n ns ih =>
      intro s he
      cases h : n.undeclared? s with
      | some e =>
          rw [along_cons_error h] at he
          cases he
      | none =>
          rw [along_cons h] at he ⊢
          rw [ih he, Node.size_serve, List.countP_cons]
          omega

end Pass

/-! ## Resolution is a pass -/

namespace Tree

mutual

/-- Resolving a tree in the innermost of the blocks around it is a pass over its nodes. -/
theorem resolve_pass (share : Bool) : ∀ (t : Tree) (active : Nat) (outer : List Nat) (w : Walk),
    Pass.along share w.scopes (t.nodes (active :: outer) w.scopes.size) =
      ⟨(t.resolve share active w).value.nodes (active :: outer) w.scopes.size,
        (t.resolve share active w).walk.scopes, (t.resolve share active w).error⟩
  | block site body, active, outer, w => by
      have hsize : (w.enter (some active) site.location).scopes.size = w.scopes.size + 1 :=
        Scopes.size_push _ _ _
      have ih := resolveAll_pass share body w.scopes.size (active :: outer)
        (w.enter (some active) site.location)
      rw [hsize] at ih
      rw [resolve_block, nodes, nodes, Pass.along_cons rfl]
      simp only [Node.serve, Node.request?, Option.elim_some]
      exact congrArg (fun r : Pass => Pass.mk (_ :: r.nodes) r.scopes r.error) ih
  | declaration site name slot init, active, outer, w => by
      have hsize : (w.declare active name).1.scopes.size = w.scopes.size :=
        w.scopes.size_serve (.declare active name)
      have ih := resolve_pass share init active outer (w.declare active name).1
      rw [hsize] at ih
      rw [resolve_declaration, nodes, nodes, Pass.along_cons rfl]
      exact congrArg (fun r : Pass => Pass.mk (_ :: r.nodes) r.scopes r.error) ih
  | operation site op left right, active, outer, w => by
      have ihl := resolve_pass share left active outer w
      have hcount := Pass.countP_nodes share (left.nodes (active :: outer) w.scopes.size) w.scopes
      rw [ihl] at hcount
      rw [nodes, Pass.along_cons rfl]
      simp only [Node.serve, Node.request?, Option.elim_none, Pass.along_append, ihl]
      cases he : (left.resolve share active w).error with
      | some e =>
          simp only [resolve, he, nodes, hcount]
          rfl
      | none =>
          have hsize := Pass.size_scopes ((congrArg Pass.error ihl).trans he)
          rw [ihl] at hsize
          have ihr := resolve_pass share right active outer (left.resolve share active w).walk
          rw [hsize] at ihr
          rw [resolve_operation he, ihr]
          simp only [nodes, hcount]
          rfl
  | identifier site name binding, active, outer, w => by
      rw [nodes, resolve, Pass.along, Node.undeclared?, Pass.along]
      cases h : w.scopes.lookup active name with
      | none => simp [Node.home, Node.noted, nodes, h]
      | some b => simp [Node.home, Node.noted, Node.serve, Node.request?, nodes, h]
  | literal site value constant, active, outer, w => by
      rw [nodes, resolve, Pass.along_cons rfl, Pass.along, Node.serve, Node.request?]
      cases h : value.inline? with
      | some n => simp [Node.noted, Node.home, nodes, h]
      | none => simp [Node.noted, Node.home, Walk.hoist, Scopes.serve, nodes, h]

/-- Resolving statements is a pass over their nodes. -/
theorem resolveAll_pass (share : Bool) : ∀ (ts : List Tree) (active : Nat) (outer : List Nat)
    (w : Walk),
    Pass.along share w.scopes (nodesAll (active :: outer) w.scopes.size ts) =
      ⟨nodesAll (active :: outer) w.scopes.size (resolveAll share active [] ts w).value,
        (resolveAll share active [] ts w).walk.scopes, (resolveAll share active [] ts w).error⟩
  | [], active, outer, w => by
      rw [nodesAll, resolveAll]
      rfl
  | t :: ts, active, outer, w => by
      have iht := resolve_pass share t active outer w
      have hcount := Pass.countP_nodes share (t.nodes (active :: outer) w.scopes.size) w.scopes
      rw [iht] at hcount
      rw [nodesAll]
      simp only [Pass.along_append, iht]
      cases he : (t.resolve share active w).error with
      | some e =>
          rw [resolveAll_cons_error he]
          simp only [nodesAll, hcount]
      | none =>
          have hsize := Pass.size_scopes ((congrArg Pass.error iht).trans he)
          rw [iht] at hsize
          have ihts := resolveAll_pass share ts active outer (t.resolve share active w).walk
          rw [hsize] at ihts
          rw [resolveAll_cons he, ihts]
          simp only [nodesAll, hcount]

end

end Tree

/-- Resolving a program is a pass over its nodes. -/
theorem Program.resolve_pass (p : Program) (share : Bool) :
    Pass.along share ∅ p.nodes =
      ⟨(p.resolve share).value.nodes, (p.resolve share).walk.scopes, (p.resolve share).error⟩ := by
  have h := Tree.resolveAll_pass share p.body 0 [] (({} : Walk).enter none p.site.location)
  rw [nodes_eq, nodes_eq, Pass.along_cons rfl]
  exact congrArg (fun r : Pass => Pass.mk (_ :: r.nodes) r.scopes r.error) h

end BlockScript
