import BlockScript.Proofs.Code.Lowering
import BlockScript.Proofs.Tree.History

/-!
# Which programs are well scoped

Whether a name is known at a place can be read off the nodes of a program without any arena.  A use
of a name is *well scoped* if some node before it in pre-order declares the name, and does so in a
block around the use.  A declaration comes before its own initial value, so `var a = a` is well
scoped, and a use before the declaration is not.

Resolution succeeds if every use is well scoped (`Program.wellScoped_iff`).  It stops at the first
that is not (`Program.illScoped_iff`), and binds the others to the innermost block in which their
names are declared before them (`Program.exists_binding`).
-/

namespace BlockScript

/-! ## Well-scoped nodes -/

/-- Some of the nodes declares the name in the block with the number. -/
def Declared (ns : List Node) (b : Nat) (name : String) : Prop :=
  ∃ d ∈ ns, d.declares? b = some name

instance (ns : List Node) (b : Nat) (name : String) : Decidable (Declared ns b name) :=
  inferInstanceAs (Decidable (∃ d ∈ ns, d.declares? b = some name))

/-- Of the blocks around a node, `b` is the innermost in which the name is declared, and `inner` are
those inside it. -/
def Innermost (before : List Node) (name : String) (around inner : List Nat) (b : Nat) : Prop :=
  inner ++ [b] <+: around ∧ Declared before b name ∧ ∀ k ∈ inner, ¬ Declared before k name

/-- If the node is a use of a name, the nodes before it declare the name in a block around it. -/
def Node.WellScoped (before : List Node) (n : Node) : Prop :=
  match n.label with
  | .identifier _ name _ => ∃ b ∈ n.around, Declared before b name
  | .block .. | .declaration .. | .operation .. | .literal .. => True

instance (before : List Node) : (n : Node) → Decidable (n.WellScoped before)
  | ⟨.identifier _ name _, around⟩ =>
    inferInstanceAs (Decidable (∃ b ∈ around, Declared before b name))
  | ⟨.block .., _⟩ | ⟨.declaration .., _⟩ | ⟨.operation .., _⟩ | ⟨.literal .., _⟩ => .isTrue trivial

/-! ## What the arena knows -/

theorem mem_namesAt_iff {ns : List Node} (h : Throughout Node.Placed [] ns) (share : Bool) (b : Nat)
    (name : String) :
    name ∈ (History.ofNodes share ns).scopes.namesAt b ↔ Declared ns b name := by
  rw [History.namesAt_ofNodes h, List.mem_eraseDups, List.mem_filterMap]
  rfl

section

variable {before : List Node} {n : Node} (hb : Throughout Node.Placed [] before)
  (hn : n.Placed before) (h : n.isBlock = false) (share : Bool)

include hb hn h

/-- Outwards from a node that is no block one meets the contexts of the blocks around it. -/
theorem exists_outward :
    ∃ outer, n.around = n.home :: outer ∧
      (History.ofNodes share before).scopes.Outward (n.home :: outer) := by
  obtain ⟨outer, ho⟩ := hn.around_eq h
  refine ⟨outer, ho, ?_⟩
  rw [← ho]
  exact History.outward_ofNodes hb share hn.nested (by simp [ho])

/-- A name is known at a node if it is declared before it, in a block around it. -/
theorem isSome_lookup_iff (name : String) :
    ((History.ofNodes share before).scopes.lookup n.home name).isSome ↔
      ∃ b ∈ n.around, Declared before b name := by
  obtain ⟨outer, ho, hout⟩ := exists_outward hb hn h share
  simp only [Scopes.lookup, hout.isSome_lookupFrom_iff, mem_namesAt_iff hb, ho]

/-- A name means the variable of the innermost block in which it is declared before the node. -/
theorem innermost_of_lookup {name : String} {b : Binding}
    (hl : (History.ofNodes share before).scopes.lookup n.home name = some b) :
    ∃ inner, Innermost before name n.around inner b.context ∧
      (.declare b.context name, b.slot) ∈ (History.ofNodes share before).log ∧
      b.reach = if b.context = 0 then .global else .frame inner.length := by
  obtain ⟨outer, ho, hout⟩ := exists_outward hb hn h share
  obtain ⟨inner, j, rest, hsplit, hj, hinner, rfl⟩ := hout.lookupFrom_eq_some_iff.1 hl
  rw [← ho] at hsplit
  refine ⟨inner, ⟨⟨rest, by simp [hsplit]⟩, (mem_namesAt_iff hb share j name).1 hj, ?_⟩, ?_, ?_⟩
  · intro k hk hd
    exact hinner k hk ((mem_namesAt_iff hb share k name).2 hd)
  · exact ((History.leads_ofNodes hb).declared.slots j name _).2 ⟨hj, rfl⟩
  · -- the outermost block is the one with no blocks around it
    have hnested := hn.nested
    rw [hsplit] at hnested
    obtain ⟨m, hm, rfl⟩ := hnested.exists_block
    simp only [List.isEmpty_iff, around_eq_nil_iff hb hm, Nat.zero_add]

end

theorem undeclared?_eq_none_iff {before : List Node} {n : Node}
    (hb : Throughout Node.Placed [] before) (hn : n.Placed before) (share : Bool) :
    n.undeclared? (History.ofNodes share before).scopes = none ↔ n.WellScoped before := by
  obtain ⟨label, around⟩ := n
  cases label with
  | identifier site name binding =>
      have hknown := isSome_lookup_iff hb hn rfl share name
      simp only [Node.undeclared?, Node.WellScoped, ite_eq_left_iff, reduceCtorEq, imp_false,
        not_not, hknown]
  | block _ | declaration _ _ _ | operation _ _ | literal _ _ _ => exact iff_of_true rfl trivial

theorem undeclared?_throughout_iff {ns : List Node} (h : Throughout Node.Placed [] ns)
    (share : Bool) :
    Throughout (fun front n => n.undeclared? (History.ofNodes share front).scopes = none) [] ns ↔
      Throughout Node.WellScoped [] ns := by
  refine forall₃_congr fun i n hn => ?_
  exact undeclared?_eq_none_iff (h.take i) (h i n hn) share

/-- The error at a node is about a use that is not well scoped. -/
theorem undeclared?_eq_some_iff {before : List Node} {n : Node}
    (hb : Throughout Node.Placed [] before) (hn : n.Placed before) (share : Bool) (e : Undeclared) :
    n.undeclared? (History.ofNodes share before).scopes = some e ↔
      ¬ n.WellScoped before ∧ ∃ site binding, n.label = .identifier site e.name binding ∧
        site.location = e.location := by
  rw [← undeclared?_eq_none_iff hb hn share]
  obtain ⟨label, around⟩ := n
  cases label with
  | identifier site name binding =>
      simp only [Node.undeclared?]
      split
      next => simp
      next =>
        constructor
        · rintro ⟨⟩
          exact ⟨by simp, site, binding, rfl, rfl⟩
        · rintro ⟨-, _, _, hlabel, hlocation⟩
          cases hlabel
          rw [hlocation]
  | block _ | declaration _ _ _ | operation _ _ | literal _ _ _ => simp [Node.undeclared?]

/-! ## Resolution -/

namespace Program

/-- A program is resolved if its uses of names are well scoped. -/
theorem wellScoped_iff (p : Program) (share : Bool) :
    (p.resolve share).error = none ↔ Throughout Node.WellScoped [] p.nodes := by
  rw [error_eq_none_iff, undeclared?_throughout_iff p.nodes_placed]

/-- The error of resolution is about the first use that is not well scoped. -/
theorem illScoped_iff (p : Program) (share : Bool) (e : Undeclared) :
    (p.resolve share).error = some e ↔
      ∃ (i : Nat) (n : Node), p.nodes[i]? = some n ∧ ¬ n.WellScoped (p.nodes.take i) ∧
        (∃ site binding, n.label = .identifier site e.name binding ∧ site.location = e.location) ∧
        Throughout Node.WellScoped [] (p.nodes.take i) := by
  rw [error_eq_some_iff]
  refine exists₂_congr fun i n => and_congr_right fun hn => ?_
  have hbefore := p.nodes_placed.take i
  rw [undeclared?_eq_some_iff hbefore (p.nodes_placed i n hn), undeclared?_throughout_iff hbefore,
    and_assoc]

/-- The context that a program has noted at the block with the number. -/
def contextAt (p : Program) (b : Nat) : Option Nat :=
  (p.nodes.filter Node.isBlock)[b]?.bind (·.label.site.context)

/-- The blocks around a node have their numbers as contexts. -/
theorem contextAt_resolve {p : Program} {share : Bool} (h : (p.resolve share).error = none)
    {i : Nat} {n : Node} (hi : p.nodes[i]? = some n) {inner : List Nat} {b : Nat}
    (hb : inner ++ [b] <+: n.around) : (p.resolve share).value.contextAt b = some b := by
  obtain ⟨outer, hsplit⟩ := hb
  have hnested := p.nodes_placed.nested hi
  rw [← hsplit, List.append_assoc] at hnested
  obtain ⟨m, hm, -⟩ := hnested.exists_block
  rw [contextAt, blocks_resolve h, List.getElem?_mapIdx, hm]
  rfl

/-- In a resolved program every use of a name has a binding. -/
theorem exists_binding {p : Program} {share : Bool} (h : (p.resolve share).error = none) {i : Nat}
    {site : Site} {name : String} {old : Option Binding} {around : List Nat}
    (hi : p.nodes[i]? = some ⟨.identifier site name old, around⟩) :
    ∃ inner b, Innermost (p.nodes.take i) name around inner b.context ∧
      (p.resolve share).value.nodes[i]? =
        some ⟨.identifier (site.within (around.headD 0)) name (some b), around⟩ ∧
      (∃ c, (p.resolve share).walk.scopes.find? b.context = some c ∧
        c.slotOf? name = some b.slot) ∧
      b.reach = if b.context = 0 then .global else .frame inner.length := by
  have hbefore := p.nodes_placed.take i
  have hn := p.nodes_placed i _ hi
  have hscoped := (wellScoped_iff p share).1 h i _ hi
  obtain ⟨b, hl⟩ :=
    Option.isSome_iff_exists.1 ((isSome_lookup_iff hbefore hn rfl share name).2 hscoped)
  obtain ⟨inner, hinner, hlog, hreach⟩ := innermost_of_lookup hbefore hn rfl share hl
  refine ⟨inner, b, hinner, ?_, ?_, hreach⟩
  · rw [getElem?_nodes_resolve h, hi, Option.map_some, Node.noted]
    simp only [hl, Option.some_or]
    rfl
  · rw [scopes_resolve h]
    exact History.slotOf?_of_take p.nodes_placed hlog

/--
Resolution succeeds if every use of a name is well scoped, and else tells the first that is not.  If
it succeeds, a use is bound to the context of the innermost block around it in which its name is
declared before it, and to the slot of the name there.  The binding is global for the outermost
block, and else counts the blocks between.
-/
theorem resolve_scoping (p : Program) (share : Bool) :
    ((p.resolve share).error = none ↔ Throughout Node.WellScoped [] p.nodes) ∧
    (∀ e, (p.resolve share).error = some e ↔
      ∃ (i : Nat) (n : Node), p.nodes[i]? = some n ∧ ¬ n.WellScoped (p.nodes.take i) ∧
        (∃ site binding, n.label = .identifier site e.name binding ∧ site.location = e.location) ∧
        Throughout Node.WellScoped [] (p.nodes.take i)) ∧
    ((p.resolve share).error = none →
      ∀ (i : Nat) (site : Site) (name : String) (old : Option Binding) (around : List Nat),
        p.nodes[i]? = some ⟨.identifier site name old, around⟩ →
        ∃ (inner : List Nat) (j : Nat) (site' : Site) (b : Binding),
          Innermost (p.nodes.take i) name around inner j ∧
          (p.resolve share).value.nodes[i]? =
            some ⟨.identifier site' name (some b), around⟩ ∧
          (p.resolve share).value.contextAt j = some b.context ∧
          (∃ c, (p.resolve share).walk.scopes.find? b.context = some c ∧
            c.slotOf? name = some b.slot) ∧
          b.reach = if j = 0 then .global else .frame inner.length) := by
  refine ⟨p.wellScoped_iff share, p.illScoped_iff share, ?_⟩
  intro h i site name old around hi
  obtain ⟨inner, b, hinner, hnode, hslot, hreach⟩ := exists_binding h hi
  exact ⟨inner, b.context, _, b, hinner, hnode, contextAt_resolve h hi hinner.1, hslot, hreach⟩

/-- In `var b = a + 1` the block of `Program.shadowing` does not have its own `a` yet, so this is
the global one. -/
theorem resolve_scoping_shadowing :
    (shadowing.resolve false).error = none ∧
      ∃ site b, (shadowing.resolve false).value.nodes[6]? =
        some ⟨.identifier site "a" (some b), [1, 0]⟩ ∧ b.reach = .global := by
  obtain ⟨hscoped, -, hbinds⟩ := resolve_scoping shadowing false
  have h := hscoped.2 (by decide)
  obtain ⟨inner, j, site, b, ⟨hinner, hj, -⟩, hnode, -, -, hreach⟩ := hbinds h 6 _ "a" _ _ rfl
  refine ⟨h, site, b, hnode, ?_⟩
  have haround : j ∈ [1, 0] := hinner.subset (by simp)
  have hone : ¬ Declared (shadowing.nodes.take 6) 1 "a" := by decide
  obtain rfl : j = 0 := by
    simp only [List.mem_cons, List.not_mem_nil, or_false] at haround
    obtain rfl | rfl := haround
    · exact absurd hj hone
    · rfl
  exact hreach

end Program

end BlockScript
