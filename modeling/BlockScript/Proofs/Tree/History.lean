import BlockScript.Proofs.Scope.Lookup
import BlockScript.Proofs.Tree.Preorder

/-!
# The history that nodes make

A node of a program asks the arena for at most one thing: a block for a context, a declaration for a
slot, a number that needs a constant for a place in the pool.  So the nodes of a program, in
pre-order, make a history of an arena (`History.ofNodes`).  The blocks around a node come before it
and are open (`Program.nodes_placed`), so all requests are valid, and what is known about histories
holds of this one (`History.leads_ofNodes`).

A pass over nodes is said through this history.  In front of a node the arena is the one of the
history of the nodes before it, and the notes at the node and the error there are read off it
(`Pass.error_eq_none_iff`, `Pass.getElem?_nodes`).  The contexts of the arena are those of the
blocks (`History.find?_ofNodes`), and their variables are those that the nodes declare in the blocks
(`History.namesAt_ofNodes`).
-/

namespace BlockScript

/-! ## Along a list -/

/-- `P` holds of every entry of `ns` and what is in front of it, with `before` in front of all. -/
def Throughout {α : Type} (P : List α → α → Prop) (before ns : List α) : Prop :=
  ∀ (i : Nat) (n : α), ns[i]? = some n → P (before ++ ns.take i) n

section

variable {α : Type} {P : List α → α → Prop} {before ns more : List α}

theorem throughout_nil : Throughout P before [] := by
  intro i n h
  cases h

theorem throughout_cons {n : α} :
    Throughout P before (n :: ns) ↔ P before n ∧ Throughout P (before ++ [n]) ns := by
  constructor
  · intro h
    refine ⟨by simpa using h 0 n rfl, ?_⟩
    intro i m hm
    simpa using h (i + 1) m hm
  · rintro ⟨hn, h⟩ i m hm
    cases i with
    | zero =>
        cases hm
        simpa using hn
    | succ i => simpa using h i m hm

theorem throughout_append :
    Throughout P before (ns ++ more) ↔
      Throughout P before ns ∧ Throughout P (before ++ ns) more := by
  induction ns generalizing before with
  | nil => simp [throughout_nil]
  | cons n ns ih => simp [throughout_cons, ih, and_assoc]

instance decidableThroughout [∀ front n, Decidable (P front n)] :
    (before ns : List α) → Decidable (Throughout P before ns)
  | _, [] => .isTrue throughout_nil
  | before, n :: ns =>
    have := decidableThroughout (before ++ [n]) ns
    decidable_of_iff _ throughout_cons.symm

theorem Throughout.take (h : Throughout P before ns) (i : Nat) :
    Throughout P before (ns.take i) := by
  rw [← List.take_append_drop i ns, throughout_append] at h
  exact h.1

end

/-! ## Nodes in their places -/

/-- The blocks with these numbers stand one in the other, the innermost first. -/
inductive Nested (blocks : List Node) : List Nat → Prop where
  | nil : Nested blocks []
  | cons {b : Nat} {m : Node} : blocks[b]? = some m → Nested blocks m.around →
      Nested blocks (b :: m.around)

theorem Nested.append {blocks : List Node} {around : List Nat} (h : Nested blocks around)
    (more : List Node) : Nested (blocks ++ more) around := by
  induction h with
  | nil => exact .nil
  | cons hb _ ih => exact .cons (getElem?_of_isPrefix (List.prefix_append _ _) hb) ih

/-- Around each of nested blocks are those behind it. -/
theorem Nested.exists_block {blocks : List Node} {inner outer : List Nat} {b : Nat}
    (h : Nested blocks (inner ++ b :: outer)) : ∃ m, blocks[b]? = some m ∧ m.around = outer := by
  induction inner with
  | nil =>
      cases h with
      | cons hb _ => exact ⟨_, hb, rfl⟩
  | cons i inner ih =>
      rw [List.cons_append] at h
      generalize hl : inner ++ b :: outer = l at h ih
      cases h with
      | cons _ hrest => exact ih hrest

/-- How a node stands behind others in pre-order. -/
structure Node.Placed (before : List Node) (n : Node) : Prop where
  /-- The blocks around it are among them. -/
  nested : Nested (before.filter Node.isBlock) n.around
  /-- Only the first node stands in no block. -/
  first : n.around = [] ↔ before = []
  /-- It is a block itself. -/
  outermost : n.around = [] → n.isBlock = true

/-- A node stands in its place if the blocks around it do. -/
theorem Node.Placed.of_nested {before : List Node} {n : Node} (hb : before ≠ [])
    (ha : n.around ≠ []) (h : Nested (before.filter Node.isBlock) n.around) : n.Placed before :=
  ⟨h, iff_of_false ha hb, fun hnil => absurd hnil ha⟩

/-- The numbers around a node are those of blocks. -/
theorem Throughout.nested {ns : List Node} (h : Throughout Node.Placed [] ns) {i : Nat} {n : Node}
    (hi : ns[i]? = some n) : Nested (ns.filter Node.isBlock) n.around := by
  have hn := (h i n hi).nested
  rw [List.nil_append] at hn
  have hsplit : ns.filter Node.isBlock =
      (ns.take i).filter Node.isBlock ++ (ns.drop i).filter Node.isBlock := by
    rw [← List.filter_append, List.take_append_drop]
  rw [hsplit]
  exact hn.append _

namespace Tree

mutual

/-- The nodes of a tree stand in their places, if the tree does. -/
theorem nodes_placed : ∀ (t : Tree) {before : List Node} {around : List Nat} {next : Nat},
    before ≠ [] → around ≠ [] → Nested (before.filter Node.isBlock) around →
    next = before.countP Node.isBlock → Throughout Node.Placed before (t.nodes around next)
  | block site body, before, around, next, hb, ha, hn, hnext => by
      rw [nodes, throughout_cons]
      refine ⟨.of_nested hb ha hn, nodesAll_placed body (by simp) (by simp) ?_ ?_⟩
      · rw [List.filter_append]
        refine .cons (m := ⟨.block site, around⟩) ?_ (hn.append _)
        rw [hnext, List.countP_eq_length_filter, List.getElem?_append_right (Nat.le_refl _),
          Nat.sub_self]
        rfl
      · rw [List.countP_append, hnext]
        rfl
  | declaration site name slot init, before, around, next, hb, ha, hn, hnext => by
      rw [nodes, throughout_cons]
      refine ⟨.of_nested hb ha hn, nodes_placed init (by simp) ha ?_ ?_⟩
      · rw [List.filter_append]
        exact hn.append _
      · rw [List.countP_append, hnext]
        rfl
  | operation site op left right, before, around, next, hb, ha, hn, hnext => by
      rw [nodes, throughout_cons, throughout_append]
      have hn' (more : List Node) : Nested ((before ++ more).filter Node.isBlock) around := by
        rw [List.filter_append]
        exact hn.append _
      have hnext' : next =
          (before ++ [⟨.operation site op, around⟩] : List Node).countP Node.isBlock := by
        rw [List.countP_append, hnext]
        rfl
      refine ⟨.of_nested hb ha hn, nodes_placed left (by simp) ha (hn' _) hnext',
        nodes_placed right (by simp) ha ?_ ?_⟩
      · rw [List.append_assoc]
        exact hn' _
      · rw [List.countP_append, ← hnext']
  | identifier site name binding, before, around, next, hb, ha, hn, hnext => by
      rw [nodes, throughout_cons]
      exact ⟨.of_nested hb ha hn, throughout_nil⟩
  | literal site value constant, before, around, next, hb, ha, hn, hnext => by
      rw [nodes, throughout_cons]
      exact ⟨.of_nested hb ha hn, throughout_nil⟩

theorem nodesAll_placed : ∀ (ts : List Tree) {before : List Node} {around : List Nat}
    {next : Nat}, before ≠ [] → around ≠ [] → Nested (before.filter Node.isBlock) around →
    next = before.countP Node.isBlock → Throughout Node.Placed before (nodesAll around next ts)
  | [], _, _, _, _, _, _, _ => throughout_nil
  | t :: ts, before, around, next, hb, ha, hn, hnext => by
      rw [nodesAll, throughout_append]
      refine ⟨nodes_placed t hb ha hn hnext, nodesAll_placed ts (by simp [hb]) ha ?_ ?_⟩
      · rw [List.filter_append]
        exact hn.append _
      · rw [List.countP_append, hnext]

end

end Tree

theorem Program.nodes_placed (p : Program) : Throughout Node.Placed [] p.nodes := by
  rw [nodes_eq, throughout_cons]
  refine ⟨⟨.nil, by simp, fun _ => rfl⟩, Tree.nodesAll_placed p.body (by simp) (by simp) ?_ rfl⟩
  exact .cons (m := ⟨.block p.site, []⟩) rfl .nil

/-! ## Histories -/

/-- The history with what the node asks of the arena. -/
def Node.record (share : Bool) (h : History) (n : Node) : History :=
  (n.request? share).elim h h.serve

/-- The history that nodes make. -/
def History.ofNodes (share : Bool) (ns : List Node) : History := ns.foldl (Node.record share) {}

namespace History

variable {share : Bool} {ns : List Node}

theorem ofNodes_concat (share : Bool) (ns : List Node) (n : Node) :
    ofNodes share (ns ++ [n]) = n.record share (ofNodes share ns) := by
  rw [ofNodes, List.foldl_append]
  rfl

theorem scopes_concat (share : Bool) (ns : List Node) (n : Node) :
    (ofNodes share (ns ++ [n])).scopes = n.serve share (ofNodes share ns).scopes := by
  rw [ofNodes_concat, Node.record, Node.serve]
  cases n.request? share with
  | none => rfl
  | some q => rfl

theorem requests_ofNodes (share : Bool) (ns : List Node) :
    (ofNodes share ns).log.map Prod.fst = ns.filterMap (Node.request? share) := by
  induction ns using List.reverseRecOn with
  | nil => rfl
  | append_singleton ns n ih =>
      rw [ofNodes_concat, List.filterMap_append, ← ih, Node.record]
      cases hq : n.request? share with
      | none => simp [hq]
      | some q => simp [hq, serve]

theorem size_ofNodes (share : Bool) (ns : List Node) :
    (ofNodes share ns).scopes.size = ns.countP Node.isBlock := by
  induction ns using List.reverseRecOn with
  | nil => rfl
  | append_singleton ns n ih =>
      rw [scopes_concat, Node.size_serve, ih, List.countP_append, List.countP_singleton]

end History

/-! ## What a pass leaves -/

namespace Pass

variable (share : Bool) (before ns : List Node)

/-- Nothing stops a pass if no node does. -/
theorem error_eq_none_iff : (along share (History.ofNodes share before).scopes ns).error = none ↔
    Throughout (fun front n => n.undeclared? (History.ofNodes share front).scopes = none)
      before ns := by
  induction ns generalizing before with
  | nil => simp [along, throughout_nil]
  | cons n ns ih =>
      rw [throughout_cons]
      cases h : n.undeclared? (History.ofNodes share before).scopes with
      | some e => simp [along_cons_error h]
      | none => simp [along_cons h, ← History.scopes_concat, ih]

/-- A pass stops at the first node that stops it. -/
theorem error_eq_some_iff {e : Undeclared} :
    (along share (History.ofNodes share before).scopes ns).error = some e ↔
      ∃ (i : Nat) (n : Node), ns[i]? = some n ∧
        n.undeclared? (History.ofNodes share (before ++ ns.take i)).scopes = some e ∧
        Throughout (fun front n => n.undeclared? (History.ofNodes share front).scopes = none)
          before (ns.take i) := by
  induction ns generalizing before with
  | nil => simp [along]
  | cons n ns ih =>
      cases h : n.undeclared? (History.ofNodes share before).scopes with
      | some e' =>
          rw [along_cons_error h]
          constructor
          · intro he
            exact ⟨0, n, rfl, by simpa [h] using he, throughout_nil⟩
          · rintro ⟨_ | i, m, hm, hme, hfront⟩
            · cases hm
              simpa [h] using hme
            · rw [List.take_succ_cons, throughout_cons, h] at hfront
              cases hfront.1
      | none =>
          rw [along_cons h, ← History.scopes_concat, ih]
          constructor
          · rintro ⟨i, m, hm, hme, hfront⟩
            refine ⟨i + 1, m, hm, by simpa using hme, ?_⟩
            rw [List.take_succ_cons, throughout_cons]
            exact ⟨h, hfront⟩
          · rintro ⟨_ | i, m, hm, hme, hfront⟩
            · cases hm
              simp [h] at hme
            · rw [List.take_succ_cons, throughout_cons] at hfront
              exact ⟨i, m, hm, by simpa using hme, hfront.2⟩

variable {share before ns}

theorem scopes_eq (h : (along share (History.ofNodes share before).scopes ns).error = none) :
    (along share (History.ofNodes share before).scopes ns).scopes =
      (History.ofNodes share (before ++ ns)).scopes := by
  induction ns generalizing before with
  | nil => simp [along]
  | cons n ns ih =>
      rw [error_eq_none_iff, throughout_cons] at h
      obtain ⟨hn, hns⟩ := h
      rw [along_cons hn, ← History.scopes_concat, ih ((error_eq_none_iff share _ ns).2 hns),
        List.append_assoc]
      rfl

/-- A node gets the notes that the nodes before it call for. -/
theorem getElem?_nodes (h : (along share (History.ofNodes share before).scopes ns).error = none)
    (i : Nat) :
    (along share (History.ofNodes share before).scopes ns).nodes[i]? =
      ns[i]?.map (Node.noted share (History.ofNodes share (before ++ ns.take i)).scopes) := by
  induction ns generalizing before i with
  | nil => rfl
  | cons n ns ih =>
      rw [error_eq_none_iff, throughout_cons] at h
      obtain ⟨hn, hns⟩ := h
      rw [along_cons hn, ← History.scopes_concat]
      cases i with
      | zero => simp
      | succ i => simpa using ih ((error_eq_none_iff share _ ns).2 hns) i

/-- A block gets its own number as a note. -/
theorem filter_nodes (h : (along share (History.ofNodes share before).scopes ns).error = none) :
    (along share (History.ofNodes share before).scopes ns).nodes.filter Node.isBlock =
      (ns.filter Node.isBlock).mapIdx fun k m =>
        ⟨.block (m.label.site.within (before.countP Node.isBlock + k)), m.around⟩ := by
  induction ns generalizing before with
  | nil => rfl
  | cons n ns ih =>
      rw [error_eq_none_iff, throughout_cons] at h
      obtain ⟨hn, hns⟩ := h
      have ih' := ih ((error_eq_none_iff share _ ns).2 hns)
      rw [along_cons hn, ← History.scopes_concat]
      cases hb : n.isBlock with
      | false =>
          rw [List.countP_append, List.countP_singleton, hb] at ih'
          simpa [hb] using ih'
      | true =>
          rw [List.countP_append, List.countP_singleton, hb] at ih'
          rw [List.filter_cons_of_pos (by simp [hb]), ih', List.filter_cons_of_pos hb,
            List.mapIdx_cons, Node.noted_block _ _ hb, History.size_ofNodes]
          simp [Nat.add_assoc, Nat.add_comm 1]

end Pass

namespace Program

variable {p : Program} {share : Bool}

/-- Resolving a program is a pass that starts with no history. -/
theorem along_nodes (p : Program) (share : Bool) :
    Pass.along share (History.ofNodes share []).scopes p.nodes =
      ⟨(p.resolve share).value.nodes, (p.resolve share).walk.scopes, (p.resolve share).error⟩ :=
  p.resolve_pass share

theorem error_along_nodes (h : (p.resolve share).error = none) :
    (Pass.along share (History.ofNodes share []).scopes p.nodes).error = none := by
  rw [along_nodes]
  exact h

theorem error_eq_none_iff : (p.resolve share).error = none ↔
    Throughout (fun front n => n.undeclared? (History.ofNodes share front).scopes = none)
      [] p.nodes := by
  have h := Pass.error_eq_none_iff share [] p.nodes
  rwa [along_nodes] at h

theorem error_eq_some_iff {e : Undeclared} : (p.resolve share).error = some e ↔
    ∃ (i : Nat) (n : Node), p.nodes[i]? = some n ∧
      n.undeclared? (History.ofNodes share (p.nodes.take i)).scopes = some e ∧
      Throughout (fun front n => n.undeclared? (History.ofNodes share front).scopes = none)
        [] (p.nodes.take i) := by
  have h := Pass.error_eq_some_iff share [] p.nodes (e := e)
  rwa [along_nodes] at h

/-- The contexts of a resolved program are those of its history. -/
theorem scopes_resolve (h : (p.resolve share).error = none) :
    (p.resolve share).walk.scopes = (History.ofNodes share p.nodes).scopes := by
  have hscopes := Pass.scopes_eq (error_along_nodes h)
  rwa [along_nodes] at hscopes

theorem getElem?_nodes_resolve (h : (p.resolve share).error = none) (i : Nat) :
    (p.resolve share).value.nodes[i]? =
      p.nodes[i]?.map (Node.noted share (History.ofNodes share (p.nodes.take i)).scopes) := by
  have hnodes := Pass.getElem?_nodes (error_along_nodes h) i
  rwa [along_nodes] at hnodes

/-- The `k`-th block of a resolved program has the context `k`. -/
theorem blocks_resolve (h : (p.resolve share).error = none) :
    (p.resolve share).value.nodes.filter Node.isBlock =
      (p.nodes.filter Node.isBlock).mapIdx fun k m =>
        ⟨.block (m.label.site.within k), m.around⟩ := by
  have hblocks := Pass.filter_nodes (error_along_nodes h)
  rw [along_nodes] at hblocks
  simpa using hblocks

end Program

/-! ## Valid requests -/

namespace Node.Placed

variable {before : List Node} {n : Node}

/-- The blocks around a node in its place have contexts. -/
theorem lt_size (h : n.Placed before) (share : Bool) :
    ∀ b ∈ n.around, b < (History.ofNodes share before).scopes.size := by
  have hnested := h.nested
  rw [History.size_ofNodes, List.countP_eq_length_filter]
  generalize n.around = around at hnested
  induction hnested with
  | nil => simp
  | cons hb _ ih => exact List.forall_mem_cons.2 ⟨(List.getElem?_eq_some_iff.1 hb).1, ih⟩

/-- A node that is no block stands in one. -/
theorem around_eq (h : n.Placed before) (hn : n.isBlock = false) :
    ∃ outer, n.around = n.home :: outer := by
  cases ha : n.around with
  | nil =>
      rw [h.outermost ha] at hn
      cases hn
  | cons b outer => exact ⟨outer, by rw [home, ha]; rfl⟩

theorem head?_around (h : n.Placed before) (hn : n.isBlock = false) :
    n.around.head? = some n.home := by
  obtain ⟨outer, ho⟩ := h.around_eq hn
  rw [ho]
  rfl

/-- What a node in its place asks of the arena is valid. -/
theorem valid (h : n.Placed before) {share : Bool} {q : Request} (hq : n.request? share = some q) :
    q.Valid (History.ofNodes share before).scopes := by
  have hlt : ∀ b ∈ n.around.head?, b < (History.ofNodes share before).scopes.size :=
    fun b hb => h.lt_size share b (List.mem_of_mem_head? hb)
  obtain ⟨label, around⟩ := n
  cases label with
  | block site =>
      obtain rfl := Option.some.inj hq
      exact hlt
  | declaration site name slot =>
      obtain ⟨b, hb, rfl⟩ := Option.map_eq_some_iff.1 hq
      exact hlt b hb
  | operation _ _ | identifier _ _ _ => cases hq
  | literal site value constant =>
      simp only [request?] at hq
      split at hq
      next => cases hq
      next =>
        obtain ⟨b, hb, rfl⟩ := Option.map_eq_some_iff.1 hq
        exact hlt b hb

end Node.Placed

namespace History

variable {share : Bool} {ns : List Node}

/-- Nodes in their places make a history by valid requests. -/
theorem leads_ofNodes (h : Throughout Node.Placed [] ns) : Leads {} (ofNodes share ns) := by
  induction ns using List.reverseRecOn with
  | nil => exact .refl
  | append_singleton ns n ih =>
      rw [throughout_append, throughout_cons] at h
      obtain ⟨hns, hn, -⟩ := h
      rw [ofNodes_concat, Node.record]
      cases hq : n.request? share with
      | none => exact ih hns
      | some q => exact .serve (ih hns) (hn.valid hq)

theorem log_grows_record (h : History) (n : Node) : h.log <+: (n.record share h).log := by
  rw [Node.record]
  cases n.request? share with
  | none => exact List.prefix_rfl
  | some q => exact List.prefix_append _ _

/-- What is in the log stays there. -/
theorem log_grows (share : Bool) (ns : List Node) (i : Nat) :
    (ofNodes share (ns.take i)).log <+: (ofNodes share ns).log := by
  have hsplit : ofNodes share ns =
      (ns.drop i).foldl (Node.record share) (ofNodes share (ns.take i)) := by
    rw [ofNodes, ofNodes, ← List.foldl_append, List.take_append_drop]
  rw [hsplit]
  generalize ofNodes share (ns.take i) = h
  generalize ns.drop i = more
  induction more generalizing h with
  | nil => exact List.prefix_rfl
  | cons n more ih => exact (log_grows_record h n).trans (ih (n.record share h))

/-- What a node asks for is in the log, with the reply of the arena in front of it. -/
theorem mem_log (share : Bool) {i : Nat} {n : Node} {q : Request} (hi : ns[i]? = some n)
    (hq : n.request? share = some q) :
    (q, ((ofNodes share (ns.take i)).scopes.serve q).2) ∈ (ofNodes share ns).log := by
  apply (log_grows share ns (i + 1)).subset
  rw [List.take_add_one, hi, Option.toList_some, ofNodes_concat, Node.record, hq]
  exact List.mem_append_right _ List.mem_cons_self

/-! ## Contexts -/

/-- The request of a block. -/
def opening (n : Node) : Request := .push n.around.head? n.label.site.location

theorem request?_block {n : Node} (h : n.isBlock = true) : n.request? share = some (opening n) := by
  obtain ⟨label, around⟩ := n
  cases label with
  | block site => rfl
  | _ => cases h

/-- Only blocks ask for contexts. -/
theorem opens_request? {n : Node} (h : n.isBlock = false) :
    ∀ q ∈ n.request? share, q.opens = false := by
  obtain ⟨label, around⟩ := n
  cases label with
  | block site => cases h
  | declaration site name slot =>
      intro q hq
      obtain ⟨b, -, rfl⟩ := Option.map_eq_some_iff.1 hq
      rfl
  | operation _ _ | identifier _ _ _ => simp [Node.request?]
  | literal site value constant =>
      intro q hq
      simp only [Node.request?, Option.mem_def] at hq
      split at hq
      next => cases hq
      next =>
        obtain ⟨b, -, rfl⟩ := Option.map_eq_some_iff.1 hq
        rfl

theorem openings_eq (share : Bool) (ns : List Node) :
    (ns.filterMap (Node.request? share)).filter Request.opens =
      (ns.filter Node.isBlock).map opening := by
  induction ns with
  | nil => rfl
  | cons n ns ih =>
      cases hn : n.isBlock with
      | true =>
          rw [List.filterMap_cons_some (request?_block hn), List.filter_cons_of_pos rfl, ih,
            List.filter_cons_of_pos hn, List.map_cons]
      | false =>
          rw [List.filter_cons_of_neg (by simp [hn]), ← ih]
          cases hq : n.request? share with
          | none => rw [List.filterMap_cons_none hq]
          | some q =>
              rw [List.filterMap_cons_some hq, List.filter_cons_of_neg]
              simp [opens_request? hn q hq]

/-- The contexts are those of the blocks, in order. -/
theorem find?_ofNodes (h : Throughout Node.Placed [] ns) (share : Bool) (b : Nat) :
    ((ofNodes share ns).scopes.find? b).map (fun c => (c.parent, c.owner)) =
      (ns.filter Node.isBlock)[b]?.map fun m => (m.around.head?, m.label.site.location) := by
  have hopen : ((ofNodes share ns).log.filter (·.1.opens)).map Prod.fst =
      (ns.filter Node.isBlock).map opening := by
    rw [← openings_eq share, ← requests_ofNodes, List.filter_map]
    rfl
  have hb := congrArg (·[b]?) hopen
  simp only [List.getElem?_map, (leads_ofNodes h).consistent.contexts b, Option.map_map] at hb
  cases hc : (ofNodes share ns).scopes.find? b with
  | none =>
      cases hm : (ns.filter Node.isBlock)[b]? with
      | none => rfl
      | some m =>
          rw [hc, hm] at hb
          cases hb
  | some c =>
      cases hm : (ns.filter Node.isBlock)[b]? with
      | none =>
          rw [hc, hm] at hb
          cases hb
      | some m =>
          rw [hc, hm] at hb
          have hpush : Request.push c.parent c.owner = opening m := Option.some.inj hb
          obtain ⟨hp, ho⟩ := Request.push.inj hpush
          rw [Option.map_some, Option.map_some, hp, ho]

/-- The context of a block. -/
theorem exists_find? (h : Throughout Node.Placed [] ns) (share : Bool) {b : Nat} {m : Node}
    (hm : (ns.filter Node.isBlock)[b]? = some m) :
    ∃ c, (ofNodes share ns).scopes.find? b = some c ∧ c.parent = m.around.head? ∧
      c.owner = m.label.site.location := by
  have hfind := find?_ofNodes h share b
  rw [hm, Option.map_some] at hfind
  obtain ⟨c, hc, hpair⟩ := Option.map_eq_some_iff.1 hfind
  obtain ⟨hp, ho⟩ := Prod.mk.inj hpair
  exact ⟨c, hc, hp, ho⟩

/-- Outwards from a node one meets the contexts of the blocks around it. -/
theorem outward_ofNodes (h : Throughout Node.Placed [] ns) (share : Bool) {around : List Nat}
    (hn : Nested (ns.filter Node.isBlock) around) (ha : around ≠ []) :
    (ofNodes share ns).scopes.Outward around := by
  induction hn with
  | nil => exact absurd rfl ha
  | @cons b m hb _ ih =>
      obtain ⟨c, hc, hp, -⟩ := exists_find? h share hb
      cases hm : m.around with
      | nil =>
          rw [hm] at hp
          exact .root hc hp
      | cons j js =>
          rw [hm] at hp ih
          exact .inner hc hp (ih (by simp))

end History

/-- An entry of a filtered list, in the list itself. -/
theorem getElem?_filter_iff {α : Type} {p : α → Bool} {l : List α} {k : Nat} {a : α} :
    (l.filter p)[k]? = some a ↔ ∃ i, l[i]? = some a ∧ p a = true ∧ (l.take i).countP p = k := by
  induction l generalizing k with
  | nil => simp
  | cons b l ih =>
      cases hb : p b with
      | true =>
          rw [List.filter_cons_of_pos hb]
          constructor
          · intro h
            cases k with
            | zero =>
                cases h
                exact ⟨0, rfl, hb, rfl⟩
            | succ k =>
                obtain ⟨i, hi, ha, hk⟩ := ih.1 h
                exact ⟨i + 1, hi, ha, by rw [List.take_succ_cons, List.countP_cons, hb, hk]; rfl⟩
          · rintro ⟨_ | i, hi, ha, rfl⟩
            · exact hi
            · rw [List.take_succ_cons, List.countP_cons, hb]
              exact ih.2 ⟨i, hi, ha, rfl⟩
      | false =>
          rw [List.filter_cons_of_neg (by simp [hb]), ih]
          constructor
          · rintro ⟨i, hi, ha, hk⟩
            exact ⟨i + 1, hi, ha, by rw [List.take_succ_cons, List.countP_cons, hb, hk]; rfl⟩
          · rintro ⟨_ | i, hi, ha, rfl⟩
            · cases hi
              rw [hb] at ha
              cases ha
            · refine ⟨i, hi, ha, ?_⟩
              rw [List.take_succ_cons, List.countP_cons, hb]
              rfl

/-- Of nodes in their places, only the outermost block stands in no block, and it is the first. -/
theorem around_eq_nil_iff {ns : List Node} (h : Throughout Node.Placed [] ns) {b : Nat} {m : Node}
    (hm : (ns.filter Node.isBlock)[b]? = some m) : m.around = [] ↔ b = 0 := by
  obtain ⟨i, hi, -, rfl⟩ := getElem?_filter_iff.1 hm
  have hplaced := h i m hi
  rw [List.nil_append] at hplaced
  rw [hplaced.first]
  constructor
  · intro hnil
    rw [hnil]
    rfl
  · intro hcount
    cases htake : ns.take i with
    | nil => rfl
    | cons n rest =>
        -- the first node is the outermost block, and so counted
        have hn : ns[0]? = some n := by
          rw [← List.take_append_drop i ns, htake]
          rfl
        have hfirst := h 0 n hn
        have hblock := hfirst.outermost (hfirst.first.2 rfl)
        rw [htake, List.countP_cons_of_pos hblock] at hcount
        cases hcount

namespace History

variable {share : Bool} {ns : List Node}

/-- Only the first context has no parent. -/
theorem parent_eq_none_iff (h : Throughout Node.Placed [] ns) {b : Nat} {c : Context}
    (hc : (ofNodes share ns).scopes.find? b = some c) : c.parent = none ↔ b = 0 := by
  have hfind := find?_ofNodes h share b
  rw [hc, Option.map_some] at hfind
  obtain ⟨m, hm, hpair⟩ := Option.map_eq_some_iff.1 hfind.symm
  rw [← around_eq_nil_iff h hm, ← (Prod.mk.inj hpair).1, List.head?_eq_none_iff]

/-- So every way outwards ends there. -/
theorem root_eq_zero (h : Throughout Node.Placed [] ns) {b : Nat}
    (hb : b < (ofNodes share ns).scopes.size) : (ofNodes share ns).scopes.root b = 0 := by
  obtain ⟨c, hc, hp⟩ := Scopes.find?_root hb
  exact (parent_eq_none_iff h hc).1 hp

end History

/-! ## Variables -/

/-- The name that the node declares in the block with a number, which is the nearest block around
it. -/
def Node.declares? (b : Nat) (n : Node) : Option String :=
  match n.label with
  | .declaration _ name _ => if n.around.head? = some b then some name else none
  | .block .. | .operation .. | .identifier .. | .literal .. => none

theorem Node.declares?_request? (share : Bool) (b : Nat) (n : Node) :
    (n.request? share).bind (Request.declares? b) = n.declares? b := by
  obtain ⟨label, around⟩ := n
  cases label with
  | block _ | operation _ _ | identifier _ _ _ => rfl
  | declaration site name slot =>
      cases around with
      | nil => rfl
      | cons c outer => simp [request?, declares?, Request.declares?]
  | literal site value constant =>
      simp only [request?, declares?]
      split
      next => rfl
      next =>
        cases around with
        | nil => rfl
        | cons c outer => rfl

namespace History

variable {share : Bool} {ns : List Node}

/-- The names of a context are those that the nodes declare in its block. -/
theorem namesAt_ofNodes (h : Throughout Node.Placed [] ns) (share : Bool) (b : Nat) :
    (ofNodes share ns).scopes.namesAt b = (ns.filterMap (Node.declares? b)).eraseDups := by
  have hlog : (ofNodes share ns).log.filterMap (·.1.declares? b) =
      ns.filterMap (Node.declares? b) := by
    have hmap : (ofNodes share ns).log.filterMap (·.1.declares? b) =
        ((ofNodes share ns).log.map Prod.fst).filterMap (Request.declares? b) := by
      rw [List.filterMap_map]
      rfl
    rw [hmap, requests_ofNodes, List.filterMap_filterMap]
    exact congrArg (List.filterMap · ns) (funext (Node.declares?_request? share b))
  rw [(leads_ofNodes h).declared.names, hlog]

/-- A name is known in a context with the slot that it was declared with, then and ever after. -/
theorem slotOf?_of_take (h : Throughout Node.Placed [] ns) {i b slot : Nat} {name : String}
    (hlog : (.declare b name, slot) ∈ (ofNodes share (ns.take i)).log) :
    ∃ c, (ofNodes share ns).scopes.find? b = some c ∧ c.slotOf? name = some slot :=
  ((leads_ofNodes h).consistent.declared b name slot).1 ((log_grows share ns i).subset hlog)

end History

end BlockScript
