import BlockScript.Proofs.Scoping

/-!
# Contexts and blocks

The contexts of a resolved program are its blocks over again.  The `k`-th context belongs to the
`k`-th block in pre-order.  Its parent is the context of the next block around, and its variables
are the names declared in the block itself, with slots in the order of the first declarations.

The tree says the same: a block is noted with its own context, any other node with that of the
nearest block around it, and a declaration with the slot of its name (`Mirrored`).
-/

namespace BlockScript

/-- The contexts mirror the blocks among the nodes `ns`, and the resolved nodes `rs` say so. -/
structure Mirrored (ns rs : List Node) (s : Scopes) : Prop where
  /-- The numbers around a node are those of blocks, each in the next. -/
  nested : ∀ n ∈ ns, Nested (ns.filter Node.isBlock) n.around
  /-- The contexts are those of the blocks, in order.  The parent is the context of the next block
  around, and the owner is the place of the block. -/
  contexts : ∀ k, (s.find? k).map (fun c => (c.parent, c.owner)) =
    (ns.filter Node.isBlock)[k]?.map fun m => (m.around.head?, m.label.site.location)
  /-- The variables are the names declared in the block, in the order of first declarations. -/
  names : ∀ k c, s.find? k = some c →
    c.slots = (ns.filterMap (Node.declares? k)).eraseDups.zipIdx
  /-- No node is lost or added. -/
  length : rs.length = ns.length
  /-- A block is noted with its own context. -/
  blocks : rs.filter Node.isBlock =
    (ns.filter Node.isBlock).mapIdx fun k m => ⟨.block (m.label.site.within k), m.around⟩
  /-- Any other node is noted with the context of the nearest block around it. -/
  others : ∀ (i : Nat) (n : Node), ns[i]? = some n → n.isBlock = false →
    ∃ b r, n.around.head? = some b ∧ rs[i]? = some r ∧ r.label.site = n.label.site.within b
  /-- A declaration is noted with the slot of its name there. -/
  declarations : ∀ (i : Nat) (site : Site) (name : String) (old : Option Nat) (around : List Nat),
    ns[i]? = some ⟨.declaration site name old, around⟩ →
    ∃ b c slot, around.head? = some b ∧ s.find? b = some c ∧ c.slotOf? name = some slot ∧
      rs[i]? = some ⟨.declaration (site.within b) name (some slot), around⟩

namespace Program

section

variable {p : Program} {share : Bool} (h : (p.resolve share).error = none)

include h

theorem length_nodes_resolve : (p.resolve share).value.nodes.length = p.nodes.length := by
  have hnone (i : Nat) : (p.resolve share).value.nodes.length ≤ i ↔ p.nodes.length ≤ i := by
    rw [← List.getElem?_eq_none_iff, getElem?_nodes_resolve h, Option.map_eq_none_iff,
      List.getElem?_eq_none_iff]
  exact Nat.le_antisymm ((hnone _).2 (Nat.le_refl _)) ((hnone _).1 (Nat.le_refl _))

theorem slots_resolve {k : Nat} {c : Context}
    (hc : (p.resolve share).walk.scopes.find? k = some c) :
    c.slots = (p.nodes.filterMap (Node.declares? k)).eraseDups.zipIdx := by
  rw [scopes_resolve h] at hc
  rw [← History.namesAt_ofNodes p.nodes_placed share, Scopes.namesAt_eq, hc]
  rfl

/-- The slot noted at a declaration is that of the name in the context of the nearest block. -/
theorem exists_slot {i : Nat} {site : Site} {name : String} {old : Option Nat} {around : List Nat}
    (hi : p.nodes[i]? = some ⟨.declaration site name old, around⟩) :
    ∃ b c slot, around.head? = some b ∧ (p.resolve share).walk.scopes.find? b = some c ∧
      c.slotOf? name = some slot ∧ (p.resolve share).value.nodes[i]? =
        some ⟨.declaration (site.within b) name (some slot), around⟩ := by
  have hhead : around.head? = some (around.headD 0) := (p.nodes_placed i _ hi).head?_around rfl
  have hq : Node.request? share ⟨.declaration site name old, around⟩ =
      some (.declare (around.headD 0) name) := by
    rw [Node.request?, hhead]
    rfl
  obtain ⟨c, hc, hslot⟩ := ((History.leads_ofNodes p.nodes_placed).consistent.declared _ _ _).1
    (History.mem_log share hi hq)
  refine ⟨around.headD 0, c, _, hhead, scopes_resolve h ▸ hc, hslot, ?_⟩
  rw [getElem?_nodes_resolve h, hi]
  rfl

end

/--
The contexts of a resolved program are those of its blocks in pre-order.  They have the places, the
parents and the variables of the blocks, and every node is noted with its context.
-/
theorem resolve_mirrored {p : Program} {share : Bool} (h : (p.resolve share).error = none) :
    Mirrored p.nodes (p.resolve share).value.nodes (p.resolve share).walk.scopes where
  nested n hn := by
    obtain ⟨i, hi⟩ := List.mem_iff_getElem?.1 hn
    exact p.nodes_placed.nested hi
  contexts k := by
    rw [scopes_resolve h]
    exact History.find?_ofNodes p.nodes_placed share k
  names k c hc := slots_resolve h hc
  length := length_nodes_resolve h
  blocks := blocks_resolve h
  others i n hi hn := by
    have hnode := getElem?_nodes_resolve h i
    rw [hi, Option.map_some] at hnode
    exact ⟨n.home, _, (p.nodes_placed i n hi).head?_around hn, hnode, Node.site_noted share _ hn⟩
  declarations i site name old around hi := exists_slot h hi

/-- The block inside `Program.shadowing` declares two names, of which it has one from around it. -/
theorem resolve_mirrored_shadowing :
    (shadowing.resolve false).error = none ∧
      Mirrored shadowing.nodes (shadowing.resolve false).value.nodes
        (shadowing.resolve false).walk.scopes ∧
      ∃ c, (shadowing.resolve false).walk.scopes.find? 1 = some c ∧ c.parent = some 0 ∧
        c.slots = [("b", 0), ("a", 1)] := by
  have h : (shadowing.resolve false).error = none := (wellScoped_iff shadowing false).2 (by decide)
  have hm := resolve_mirrored h
  obtain ⟨c, hc, hpair⟩ := Option.map_eq_some_iff.1 (hm.contexts 1)
  exact ⟨h, hm, c, hc, (Prod.mk.inj hpair).1, hm.names 1 c hc⟩

end Program

end BlockScript
