import BlockScript.Proofs.Code.Lowering

/-!
# What a program demands of the machine

The machine has three limits: the size of its stack, the number of slots of a block and the number
of constants.  What a program demands of them is read off its tree: the room that the value of an
initial value takes on the stack, the names of its blocks, and its pool.  `Compilation.Fits` says
that the machine has what a compiled program demands.
-/

namespace BlockScript

namespace Tree

/-- The room that the value of an expression takes on the stack. -/
def need : Tree → Nat
  | operation _ _ left right => max left.need (1 + right.need)
  | block .. | declaration .. | identifier .. | literal .. => 1

theorem need_pos : ∀ t : Tree, 0 < t.need
  | block .. => Nat.one_pos
  | declaration .. => Nat.one_pos
  | operation .. => by rw [need]; omega
  | identifier .. => Nat.one_pos
  | literal .. => Nat.one_pos

mutual

/-- The initial values in a node, in order. -/
def initializers : Tree → List Tree
  | block _ body => initializersAll body
  | declaration _ _ _ init => init :: init.initializers
  | operation _ _ left right => left.initializers ++ right.initializers
  | identifier .. => []
  | literal .. => []

/-- The initial values in statements. -/
def initializersAll : List Tree → List Tree
  | [] => []
  | t :: ts => t.initializers ++ initializersAll ts

end

mutual

/-- The names of each block in a node, in the order in which the blocks open. -/
def blockNames : Tree → List (List String)
  | block _ body => namesAfterAll [] body :: blockNamesAll body
  | declaration _ _ _ init => init.blockNames
  | operation _ _ left right => left.blockNames ++ right.blockNames
  | identifier .. => []
  | literal .. => []

/-- The names of each block in statements. -/
def blockNamesAll : List Tree → List (List String)
  | [] => []
  | t :: ts => t.blockNames ++ blockNamesAll ts

end

mutual

theorem names_outlines : ∀ (t : Tree) (parent next : Nat),
    (t.outlines parent next).map Outline.names = t.blockNames
  | block site body, parent, next => by
      rw [outlines, blockNames, List.map_cons, names_outlinesAll body]
  | declaration _ _ _ init, parent, next => by
      rw [outlines, blockNames, names_outlines init]
  | operation _ _ left right, parent, next => by
      rw [outlines, blockNames, List.map_append, names_outlines left, names_outlines right]
  | identifier .., _, _ => rfl
  | literal .., _, _ => rfl

theorem names_outlinesAll : ∀ (ts : List Tree) (parent next : Nat),
    (outlinesAll parent next ts).map Outline.names = blockNamesAll ts
  | [], _, _ => rfl
  | t :: ts, parent, next => by
      rw [outlinesAll, blockNamesAll, List.map_append, names_outlines t, names_outlinesAll ts]

end

/-- The machine, with `used` of `limit` operands on the stack, has what statements demand of it.
They stand in a block with the names `ns` so far. -/
structure Fit (limit used : Nat) (ns : List String) (ts : List Tree) : Prop where
  /-- The stack has room for every initial value. -/
  stack : ∀ t ∈ initializersAll ts, used + t.need ≤ limit
  /-- The blocks inside have no more names than a frame can have slots. -/
  blocks : ∀ xs ∈ blockNamesAll ts, xs.length ≤ Machine.maxSlot + 1
  /-- Nor has the block around, if it had not before. -/
  around : ns.length ≤ Machine.maxSlot + 1 →
    (namesAfterAll ns ts).length ≤ Machine.maxSlot + 1

theorem Fit.nil (limit used : Nat) (ns : List String) : Fit limit used ns [] where
  stack _ h := nomatch h
  blocks _ h := nomatch h
  around h := h

theorem Fit.cons {limit used : Nat} {ns : List String} {t : Tree} {ts : List Tree}
    (ht : Fit limit used ns [t]) (hts : Fit limit used (t.namesAfter ns) ts) :
    Fit limit used ns (t :: ts) where
  stack x hx := by
    rw [initializersAll, List.mem_append] at hx
    obtain hx | hx := hx
    · exact ht.stack x (by rw [initializersAll]; exact List.mem_append_left _ hx)
    · exact hts.stack x hx
  blocks xs hxs := by
    rw [blockNamesAll, List.mem_append] at hxs
    obtain hxs | hxs := hxs
    · exact ht.blocks xs (by rw [blockNamesAll]; exact List.mem_append_left _ hxs)
    · exact hts.blocks xs hxs
  around h := hts.around (ht.around h)

end Tree

namespace LowersExpression

variable {share : Bool} {Γ : List (List String)} {pool pool' : List Number} {t : Tree}
  {code : List Instruction}

theorem initializers_eq (h : LowersExpression share Γ pool t code pool') :
    t.initializers = [] := by
  induction h with
  | inline _ => rfl
  | constant _ => rfl
  | identifier _ => rfl
  | operation _ _ ihl ihr => rw [Tree.initializers, ihl, ihr]; rfl

theorem blockNames_eq (h : LowersExpression share Γ pool t code pool') : t.blockNames = [] := by
  rw [← t.names_outlines 0 0, h.outlines_eq]
  rfl

end LowersExpression

/-- The initial values in a program. -/
def Program.initializers (p : Program) : List Tree := Tree.initializersAll p.body

/-- The names of each block of a program, the outermost first. -/
def Program.blockNames (p : Program) : List (List String) :=
  Tree.namesAfterAll [] p.body :: Tree.blockNamesAll p.body

theorem Program.names_outlines (p : Program) :
    p.outlines.map Outline.names = p.blockNames := by
  rw [outlines, List.map_cons, Tree.names_outlinesAll, blockNames]

namespace Compilation

/-- The machine, with room for `limit` operands, has what a compiled program demands. -/
structure Fits (c : Compilation) (p : Program) (limit : Nat) : Prop where
  /-- No context has more slots than a frame can have. -/
  slots : ∀ x ∈ c.scopes.contexts, x.slotCount ≤ Machine.maxSlot + 1
  /-- There are no more constants than the pool can have. -/
  constants : c.scopes.constants.size ≤ Machine.maxSlot + 1
  /-- The stack has room for every initial value. -/
  stack : ∀ t ∈ p.initializers, t.need ≤ limit

/-- Slots are counted by the names in the tree. -/
theorem forall_slotCount {c : Compilation} {p : Program} {s : Settings} (h : p.compile s = .ok c)
    (n : Nat) :
    (∀ x ∈ c.scopes.contexts, x.slotCount ≤ n) ↔ ∀ ns ∈ p.blockNames, ns.length ≤ n := by
  rw [← p.names_outlines, ← (Program.lowers_of_compile h).2, Scopes.outline]
  simp [Context.slotCount_eq, Context.outline]

/-- A block with many names has a context with many slots. -/
theorem exists_slotCount {c : Compilation} {p : Program} {s : Settings} (h : p.compile s = .ok c)
    {ns : List String} (hns : ns ∈ p.blockNames) {n : Nat} (hn : n < ns.length) :
    ∃ x ∈ c.scopes.contexts, n < x.slotCount := by
  by_contra hno
  refine absurd ((forall_slotCount h n).1 ?_ ns hns) (Nat.not_le.2 hn)
  intro x hx
  exact Nat.le_of_not_lt fun hlt => hno ⟨x, hx, hlt⟩

theorem size_constants (c : Compilation) : c.scopes.constants.size = c.scopes.pool.length := by
  rw [Scopes.pool, Array.length_toList]

/-- What a program demands is what its statements demand, and its pool. -/
theorem fits_iff {c : Compilation} {p : Program} {s : Settings} (h : p.compile s = .ok c)
    (limit : Nat) :
    c.Fits p limit ↔ Tree.Fit limit 0 [] p.body ∧ c.scopes.pool.length ≤ Machine.maxSlot + 1 := by
  constructor
  · intro hfit
    have hslots := (forall_slotCount h _).1 hfit.slots
    refine ⟨⟨?_, ?_, ?_⟩, c.size_constants ▸ hfit.constants⟩
    · intro t ht
      rw [Nat.zero_add]
      exact hfit.stack t ht
    · intro ns hns
      exact hslots ns (List.mem_cons_of_mem _ hns)
    · intro _
      exact hslots _ (List.mem_cons_self ..)
  · rintro ⟨hfit, hpool⟩
    refine ⟨(forall_slotCount h _).2 ?_, c.size_constants ▸ hpool, ?_⟩
    · intro ns hns
      obtain rfl | hns := List.mem_cons.1 hns
      · exact hfit.around (Nat.zero_le _)
      · exact hfit.blocks ns hns
    · intro t ht
      rw [← Nat.zero_add t.need]
      exact hfit.stack t ht

end Compilation

/-- A program with code compiles and fits the machine, if its statements and its pool do. -/
theorem Program.exists_fits {p : Program} {s : Settings} {code : List Instruction}
    {pool : List Number} {limit : Nat} (h : Lowers s.dedupeConstants [] [] [] p.body code pool)
    (hfit : Tree.Fit limit 0 [] p.body) (hpool : pool.length ≤ Machine.maxSlot + 1) :
    ∃ c, p.compile s = .ok c ∧ c.Fits p limit := by
  obtain ⟨c, hc, -, rfl⟩ := compile_of_lowers h
  exact ⟨c, hc, (Compilation.fits_iff hc limit).2 ⟨hfit, hpool⟩⟩

end BlockScript
