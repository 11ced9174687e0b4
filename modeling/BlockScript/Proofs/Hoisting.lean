import BlockScript.Engine
import BlockScript.Proofs.Scoping

/-!
# Numbers in the pool

A number is *wide* if it does not fit into an instruction: every double, and an integer of more than
32 bits.  Resolution puts the wide numbers of a program into the pool of the outermost context, in
pre-order, and notes their places in the tree.  Without sharing each has a place of its own, so the
pool is the list of the wide numbers.  With sharing equal numbers have one place, and the pool is
that list without its repetitions (`Hoisted`).

In front of a node the pool is the one that the wide numbers before the node make
(`History.poolAt_ofNodes`).  Pools only grow, so a place given there is the place at the end
(`Pool.place_foldl_add`).
-/

namespace BlockScript

/-! ## Wide numbers -/

/-- Whether a number does not fit into an instruction. -/
def Number.IsWide : Number → Prop
  | integer n => n < -2147483648 ∨ 2147483647 < n
  | float _ => True

instance : (v : Number) → Decidable v.IsWide
  | .integer n => inferInstanceAs (Decidable (n < -2147483648 ∨ 2147483647 < n))
  | .float _ => .isTrue trivial

theorem Number.inline?_isSome_iff (v : Number) : v.inline?.isSome ↔ ¬ v.IsWide := by
  cases v with
  | integer n =>
      simp only [inline?, fitsOperand, IsWide, Option.isSome_ite, Bool.and_eq_true,
        decide_eq_true_eq]
      omega
  | float x => simp [inline?, IsWide]

/-- The wide number that the node is, with the place noted at it. -/
def Node.hoisted? (n : Node) : Option (Number × Option Nat) :=
  match n.label with
  | .literal _ value constant => if value.IsWide then some (value, constant) else none
  | .block .. | .declaration .. | .operation .. | .identifier .. => none

/-- The wide numbers among nodes, in order. -/
def wide (ns : List Node) : List Number := (ns.filterMap Node.hoisted?).map Prod.fst

@[simp] theorem wide_nil : wide [] = [] := rfl

theorem wide_append (ns more : List Node) : wide (ns ++ more) = wide ns ++ wide more := by
  simp [wide]

theorem wide_cons_none {n : Node} (h : n.hoisted? = none) (ns : List Node) :
    wide (n :: ns) = wide ns := by
  simp [wide, h]

theorem wide_cons_some {n : Node} {found : Number × Option Nat} (h : n.hoisted? = some found)
    (ns : List Node) : wide (n :: ns) = found.1 :: wide ns := by
  simp [wide, h]

/-! ## Pools -/

/-- The pool that numbers make. -/
theorem Pool.foldl_add (share : Bool) (values : List Number) :
    values.foldl (add share) [] = if share then values.eraseDups else values := by
  induction values using List.reverseRecOn with
  | nil => simp
  | append_singleton values value ih =>
      rw [List.foldl_append, ih, List.foldl_cons, List.foldl_nil, add, eraseDups_concat]
      cases share with
      | true => rfl
      | false => rfl

/-- What follows an entry does not change where it stands among the entries without repetitions. -/
theorem idxOf_eraseDups {α : Type} [DecidableEq α] (l r : List α) (a : α) :
    (l ++ a :: r).eraseDups.idxOf a = l.eraseDups.idxOf a := by
  have hgrow : (l ++ [a]).eraseDups <+: (l ++ a :: r).eraseDups := by
    have hsplit : (l ++ a :: r).eraseDups =
        (l ++ [a]).eraseDups ++ (r.removeAll (l ++ [a])).eraseDups := by
      rw [List.append_cons l a r]
      exact List.eraseDups_append
    exact ⟨_, hsplit.symm⟩
  rw [← hgrow.idxOf_eq_of_mem (by simp), eraseDups_concat, idxOf_enroll]

namespace History

variable {ns : List Node}

/-- A constant goes to the pool of the outermost block, from wherever it is registered. -/
theorem register_ofNodes (h : Throughout Node.Placed [] ns) (share : Bool) {b : Nat}
    (hb : b < (ofNodes share ns).scopes.size) (value : Number) :
    ((ofNodes share ns).scopes.register share b value).1.poolAt 0 =
        Pool.add share ((ofNodes share ns).scopes.poolAt 0) value ∧
      ((ofNodes share ns).scopes.register share b value).2 =
        Pool.place share ((ofNodes share ns).scopes.poolAt 0) value := by
  generalize hs : (ofNodes share ns).scopes = s at hb
  have hroot : s.root b = 0 := hs ▸ root_eq_zero h (hs ▸ hb)
  obtain ⟨c, hc, -⟩ := Scopes.find?_root hb
  rw [hroot] at hc
  have hpool : s.pools[s.root b]? = some (s.poolAt 0) := by
    rw [hroot, Scopes.poolAt_eq, Scopes.getElem?_pools, hc]
    rfl
  obtain ⟨hpools, hplace⟩ := Scopes.register_pools hpool share value
  rw [hroot] at hpool hpools
  refine ⟨?_, hplace⟩
  rw [Scopes.poolAt, hpools, List.getElem?_modify_eq, hpool]
  rfl

/-- A node changes the pool of the outermost block if it is a wide number. -/
theorem poolAt_concat {n : Node} (h : Throughout Node.Placed [] ns) (hn : n.Placed ns)
    (share : Bool) :
    (ofNodes share (ns ++ [n])).scopes.poolAt 0 =
      (wide [n]).foldl (Pool.add share) ((ofNodes share ns).scopes.poolAt 0) := by
  rw [scopes_concat]
  obtain ⟨label, around⟩ := n
  cases label with
  | block site =>
      rw [Node.serve, Node.request?, Option.elim_some, Scopes.serve, Scopes.poolAt,
        Scopes.pools_push]
      exact getD_concat_nil _ 0
  | declaration site name slot =>
      have hhead := hn.head?_around rfl
      simp only [Node.serve, Node.request?, hhead, Option.map_some, Option.elim_some,
        Scopes.serve, Scopes.poolAt, Scopes.pools_declare]
      rfl
  | operation _ _ | identifier _ _ _ => rfl
  | literal site value constant =>
      have hhead := hn.head?_around rfl
      have hlt := hn.lt_size share _ (List.mem_of_mem_head? hhead)
      by_cases hw : value.IsWide
      · have hadd := (register_ofNodes h share hlt value).1
        simpa [Node.serve, Node.request?, hhead, Number.inline?_isSome_iff, hw, Scopes.serve, wide,
          Node.hoisted?] using hadd
      · simp [Node.serve, Node.request?, Number.inline?_isSome_iff, hw, wide, Node.hoisted?]

/-- The pool has the wide numbers, in order. -/
theorem poolAt_ofNodes (h : Throughout Node.Placed [] ns) (share : Bool) :
    (ofNodes share ns).scopes.poolAt 0 = (wide ns).foldl (Pool.add share) [] := by
  induction ns using List.reverseRecOn with
  | nil => rfl
  | append_singleton ns n ih =>
      rw [throughout_append, throughout_cons] at h
      obtain ⟨hns, hn, -⟩ := h
      rw [poolAt_concat hns hn, ih hns, wide_append, List.foldl_append]

end History

/-! ## Notes -/

/-- The place of the `k`-th of the numbers in the pool that they make. -/
def Pool.finalPlace (share : Bool) (values : List Number) (k : Nat) (value : Number) : Nat :=
  if share then values.eraseDups.idxOf value else k

/-- The place that a number is given, behind `front`, is its place in the end. -/
theorem Pool.place_foldl_add (share : Bool) (front rest : List Number) (value : Number) :
    place share (front.foldl (add share) []) value =
      finalPlace share (front ++ value :: rest) front.length value := by
  rw [foldl_add, place, finalPlace]
  cases share with
  | true => exact (idxOf_eraseDups front rest value).symm
  | false => rfl

/-- A wide number is noted with its place. -/
theorem Node.hoisted?_noted {before : List Node} {n : Node} (hb : Throughout Node.Placed [] before)
    (hn : n.Placed before) (share : Bool) :
    (n.noted share (History.ofNodes share before).scopes).hoisted? =
      n.hoisted?.map fun found => (found.1,
        some (Pool.place share ((wide before).foldl (Pool.add share) []) found.1)) := by
  obtain ⟨label, around⟩ := n
  cases label with
  | literal site value constant =>
      have hlt := hn.lt_size share _ (List.mem_of_mem_head? (hn.head?_around rfl))
      have hplace := (History.register_ofNodes hb share hlt value).2
      rw [History.poolAt_ofNodes hb] at hplace
      by_cases hw : value.IsWide
      · simp [noted, hoisted?, Number.inline?_isSome_iff, hw, hplace]
      · simp [noted, hoisted?, hw]
  | block _ | declaration _ _ _ | operation _ _ | identifier _ _ _ => rfl

/-- A pass notes wide numbers with their places in the pool at the end. -/
theorem Pass.hoisted_nodes {share : Bool} {before ns : List Node}
    (hp : Throughout Node.Placed [] (before ++ ns))
    (h : (along share (History.ofNodes share before).scopes ns).error = none) :
    (along share (History.ofNodes share before).scopes ns).nodes.filterMap Node.hoisted? =
      (wide ns).mapIdx fun k value =>
        (value, some (Pool.finalPlace share (wide (before ++ ns)) ((wide before).length + k)
          value)) := by
  induction ns generalizing before with
  | nil => rfl
  | cons n ns ih =>
      rw [error_eq_none_iff, throughout_cons] at h
      obtain ⟨hundeclared, hns⟩ := h
      have hsplit := hp
      rw [throughout_append, throughout_cons] at hsplit
      obtain ⟨hb, hn, -⟩ := hsplit
      rw [List.append_cons] at hp
      have ih' := ih hp ((error_eq_none_iff share _ ns).2 hns)
      rw [along_cons hundeclared, ← History.scopes_concat]
      have hnote := Node.hoisted?_noted hb hn share
      rw [wide_append before [n]] at ih'
      cases hw : n.hoisted? with
      | none =>
          rw [hw] at hnote
          rw [wide_cons_none hw] at ih' ⊢
          rw [List.filterMap_cons_none hnote, ih', ← List.append_cons]
          simp
      | some found =>
          simp only [hw, Option.map_some] at hnote
          rw [wide_cons_some hw] at ih' ⊢
          rw [List.filterMap_cons_some hnote, ih', List.mapIdx_cons, ← List.append_cons,
            wide_append, wide_cons_some hw, Pool.place_foldl_add share _ (wide ns)]
          simp [Nat.add_assoc, Nat.add_comm 1]

/-! ## Programs -/

/-- The wide numbers among the nodes `ns` are in the pool, and the resolved nodes `rs` name their
places in it. -/
structure Hoisted (share : Bool) (ns rs : List Node) (s : Scopes) : Prop where
  /-- The pool is the list of the wide numbers, if need be without repetitions. -/
  pool : s.constants.toList = if share then (wide ns).eraseDups else wide ns
  /-- The place of a constant, as the machine is told it, is where it stands. -/
  places : ∀ code, (Compilation.mk s code).constants =
    (if share then (wide ns).eraseDups else wide ns).mapIdx fun k value => ⟨k, value⟩
  /-- A number is noted with its place: its own, or the one of all numbers equal to it. -/
  notes : rs.filterMap Node.hoisted? = (wide ns).mapIdx fun k value =>
    (value, some (if share then (wide ns).eraseDups.idxOf value else k))
  /-- No other context has constants. -/
  others : ∀ k c, s.find? k = some c → k ≠ 0 → c.constants.entries = #[]

namespace Program

/--
The wide numbers of a resolved program are the constants of its outermost context, in pre-order.
-/
theorem resolve_hoisted {p : Program} {share : Bool} (h : (p.resolve share).error = none) :
    Hoisted share p.nodes (p.resolve share).value.nodes (p.resolve share).walk.scopes := by
  have hpool : (p.resolve share).walk.scopes.constants.toList =
      if share then (wide p.nodes).eraseDups else wide p.nodes := by
    rw [← Pool.foldl_add, ← History.poolAt_ofNodes p.nodes_placed, ← scopes_resolve h]
    exact Scopes.pool_eq _
  refine ⟨hpool, ?_, ?_, ?_⟩
  · intro code
    rw [Compilation.constants, hpool, List.mapIdx_eq_zipIdx_map]
  · have hnotes := Pass.hoisted_nodes p.nodes_placed (error_along_nodes h)
    rw [along_nodes] at hnotes
    simpa [Pool.finalPlace] using hnotes
  · intro k c hc hk
    rw [scopes_resolve h] at hc
    exact (History.leads_ofNodes p.nodes_placed).consistent.inner k c hc
      (mt (History.parent_eq_none_iff p.nodes_placed hc).1 hk)

/-- The program `var a = 0.5; { var b = 4294967296 * 7; var c = 0.5; }`. -/
def repeating : Program where
  site := .nowhere
  body := [
    .declaration .nowhere "a" none (.literal .nowhere (.float ⟨0x3FE0000000000000⟩) none),
    .block .nowhere [
      .declaration .nowhere "b" none (.operation .nowhere (.arithmetic .mul)
        (.literal .nowhere (.integer 4294967296) none) (.literal .nowhere (.integer 7) none)),
      .declaration .nowhere "c" none (.literal .nowhere (.float ⟨0x3FE0000000000000⟩) none)]]

theorem resolve_hoisted_repeating :
    (repeating.resolve false).error = none ∧ (repeating.resolve true).error = none ∧
    (repeating.resolve false).walk.scopes.constants.toList =
      [.float ⟨0x3FE0000000000000⟩, .integer 4294967296, .float ⟨0x3FE0000000000000⟩] ∧
    (repeating.resolve true).walk.scopes.constants.toList =
      [.float ⟨0x3FE0000000000000⟩, .integer 4294967296] ∧
    (repeating.resolve true).value.nodes.filterMap Node.hoisted? =
      [(.float ⟨0x3FE0000000000000⟩, some 0), (.integer 4294967296, some 1),
        (.float ⟨0x3FE0000000000000⟩, some 0)] := by
  have h (share : Bool) : (repeating.resolve share).error = none :=
    (wellScoped_iff repeating share).2 (by decide)
  have hplain := resolve_hoisted (h false)
  have hshared := resolve_hoisted (h true)
  exact ⟨h false, h true, hplain.pool.trans (by decide), hshared.pool.trans (by decide),
    hshared.notes.trans (by decide)⟩

end Program

end BlockScript
