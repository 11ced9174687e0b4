import BlockScript.Proofs.Scope.Outline
import BlockScript.Tree.Resolve

/-!
# The contexts that resolution builds

Resolution threads an arena of contexts through a tree.  What it leaves there can be read off the
tree alone.  The block around a node gets the names that the node declares (`Tree.namesAfter`), and
every block below the node gets a context of its own, with its parent, its place and all its names
(`Tree.outlines`).  The main statement is `Tree.resolve_outline`: without an error, the arena after
the walk is the one before, with these names enrolled and these contexts opened.
-/

namespace BlockScript

namespace Tree

/-! ## The shape of the walk -/

/-- Statements that are done stand in front of the others and change nothing else. -/
theorem resolveAll_done (share : Bool) (active : Nat) :
    ∀ (ts done : List Tree) (w : Walk),
      resolveAll share active done ts w =
        ⟨done.reverse ++ (resolveAll share active [] ts w).value,
          (resolveAll share active [] ts w).walk, (resolveAll share active [] ts w).error⟩
  | [], done, w => by simp [resolveAll]
  | t :: ts, done, w => by
      rw [resolveAll, resolveAll]
      cases he : (t.resolve share active w).error with
      | some e => simp [List.reverseAux_eq]
      | none =>
          simp only
          rw [resolveAll_done share active ts (_ :: done), resolveAll_done share active ts [_]]
          simp

theorem resolveAll_cons_error {share : Bool} {active : Nat} {t : Tree} {w : Walk} {e : Undeclared}
    (h : (t.resolve share active w).error = some e) (ts : List Tree) :
    resolveAll share active [] (t :: ts) w =
      ⟨(t.resolve share active w).value :: ts, (t.resolve share active w).walk, some e⟩ := by
  rw [resolveAll]
  simp [h, List.reverseAux_eq]

theorem resolveAll_cons {share : Bool} {active : Nat} {t : Tree} {w : Walk}
    (h : (t.resolve share active w).error = none) (ts : List Tree) :
    resolveAll share active [] (t :: ts) w =
      ⟨(t.resolve share active w).value ::
          (resolveAll share active [] ts (t.resolve share active w).walk).value,
        (resolveAll share active [] ts (t.resolve share active w).walk).walk,
        (resolveAll share active [] ts (t.resolve share active w).walk).error⟩ := by
  rw [resolveAll]
  simp only [h]
  rw [resolveAll_done]
  rfl

/-- A list of statements resolves when its first and then the others do. -/
theorem resolveAll_cons_ok {share : Bool} {active : Nat} {t : Tree} {ts : List Tree} {w : Walk}
    (h : (resolveAll share active [] (t :: ts) w).error = none) :
    (t.resolve share active w).error = none ∧
      (resolveAll share active [] ts (t.resolve share active w).walk).error = none := by
  cases he : (t.resolve share active w).error with
  | some e =>
      rw [resolveAll_cons_error he] at h
      cases h
  | none =>
      rw [resolveAll_cons he] at h
      exact ⟨rfl, h⟩

theorem resolve_block (share : Bool) (active : Nat) (site : Site) (body : List Tree) (w : Walk) :
    (block site body).resolve share active w =
      ⟨block (site.within w.scopes.size)
          (resolveAll share w.scopes.size [] body (w.enter (some active) site.location)).value,
        (resolveAll share w.scopes.size [] body (w.enter (some active) site.location)).walk,
        (resolveAll share w.scopes.size [] body (w.enter (some active) site.location)).error⟩ := by
  rw [resolve]

theorem resolve_declaration (share : Bool) (active : Nat) (site : Site) (name : String)
    (slot : Option Nat) (init : Tree) (w : Walk) :
    (declaration site name slot init).resolve share active w =
      ⟨declaration (site.within active) name (some (w.declare active name).2)
          (init.resolve share active (w.declare active name).1).value,
        (init.resolve share active (w.declare active name).1).walk,
        (init.resolve share active (w.declare active name).1).error⟩ := by
  rw [resolve]

/-- An operation resolves when its left operand and then its right one do. -/
theorem resolve_operation {share : Bool} {active : Nat} {left : Tree} {w : Walk}
    (h : (left.resolve share active w).error = none) (site : Site) (op : Operator) (right : Tree) :
    (operation site op left right).resolve share active w =
      ⟨operation (site.within active) op (left.resolve share active w).value
          (right.resolve share active (left.resolve share active w).walk).value,
        (right.resolve share active (left.resolve share active w).walk).walk,
        (right.resolve share active (left.resolve share active w).walk).error⟩ := by
  rw [resolve]
  simp only [h]

theorem resolve_operation_ok {share : Bool} {active : Nat} {site : Site} {op : Operator}
    {left right : Tree} {w : Walk}
    (h : ((operation site op left right).resolve share active w).error = none) :
    (left.resolve share active w).error = none ∧
      (right.resolve share active (left.resolve share active w).walk).error = none := by
  cases he : (left.resolve share active w).error with
  | some e =>
      rw [resolve] at h
      simp [he] at h
  | none =>
      rw [resolve_operation he] at h
      exact ⟨rfl, h⟩

/-! ## Names and contexts of a tree -/

/-- The names of the block around a node, after the declarations in it. -/
def namesAfter (ns : List String) : Tree → List String
  | block .. => ns
  | declaration _ name _ init => init.namesAfter (enroll ns name)
  | operation _ _ left right => right.namesAfter (left.namesAfter ns)
  | identifier .. => ns
  | literal .. => ns

/-- The names of a block after statements. -/
def namesAfterAll (ns : List String) : List Tree → List String
  | [] => ns
  | t :: ts => namesAfterAll (t.namesAfter ns) ts

mutual

/-- The contexts of the blocks in a node, in the order in which they open: `parent` is the context
of the node, and `next` the first free place. -/
def outlines (parent next : Nat) : Tree → List Outline
  | block site body =>
    ⟨some parent, site.location, namesAfterAll [] body⟩ :: outlinesAll next (next + 1) body
  | declaration _ _ _ init => init.outlines parent next
  | operation _ _ left right =>
    left.outlines parent next ++ right.outlines parent (next + (left.outlines parent next).length)
  | identifier .. => []
  | literal .. => []

/-- The contexts of the blocks in statements. -/
def outlinesAll (parent next : Nat) : List Tree → List Outline
  | [] => []
  | t :: ts =>
    t.outlines parent next ++ outlinesAll parent (next + (t.outlines parent next).length) ts

end

/-- The names of a context grow at the end. -/
theorem prefix_namesAfter : ∀ (t : Tree) (ns : List String), ns <+: t.namesAfter ns
  | block .., _ => List.prefix_rfl
  | declaration _ name _ init, ns =>
      (prefix_enroll ns name).trans (init.prefix_namesAfter (enroll ns name))
  | operation _ _ left right, ns =>
      (left.prefix_namesAfter ns).trans (right.prefix_namesAfter (left.namesAfter ns))
  | identifier .., _ => List.prefix_rfl
  | literal .., _ => List.prefix_rfl

theorem prefix_namesAfterAll : ∀ (ts : List Tree) (ns : List String), ns <+: namesAfterAll ns ts
  | [], _ => List.prefix_rfl
  | t :: ts, ns => (t.prefix_namesAfter ns).trans (prefix_namesAfterAll ts (t.namesAfter ns))

/-! ## The arena after the walk -/

/-- Two changes of one context in a row, with new contexts behind. -/
theorem modify_append_modify {os more : List Outline} {i : Nat} (h : i < os.length)
    (f g : List String → List String) :
    (os.modify i (·.mapNames f) ++ more).modify i (·.mapNames g) =
      os.modify i (·.mapNames (fun ns => g (f ns))) ++ more := by
  apply List.ext_getElem?
  intro j
  by_cases hj : i = j
  · subst hj
    rw [List.getElem?_modify_eq, List.getElem?_append_left (by simpa using h),
      List.getElem?_append_left (by simpa using h), List.getElem?_modify_eq,
      List.getElem?_modify_eq]
    cases os[i]? with
    | none => rfl
    | some o => rfl
  · rw [List.getElem?_modify_ne _ _ hj]
    by_cases hlt : j < os.length
    · rw [List.getElem?_append_left (by simpa using hlt),
        List.getElem?_append_left (by simpa using hlt), List.getElem?_modify_ne _ _ hj,
        List.getElem?_modify_ne _ _ hj]
    · rw [List.getElem?_append_right (by simpa using hlt),
        List.getElem?_append_right (by simpa using hlt), List.length_modify, List.length_modify]

/-- A change of the last context. -/
theorem modify_last (os : List Outline) (o : Outline) (f : List String → List String) :
    (os ++ [o]).modify os.length (·.mapNames f) = os ++ [o.mapNames f] := by
  induction os with
  | nil => rfl
  | cons o' os ih =>
      rw [List.cons_append, List.length_cons, List.modify_succ_cons, ih]
      rfl

/-- The size of an arena whose outline is known. -/
theorem size_of_outline {s s' : Scopes} {i : Nat} {f : Outline → Outline} {more : List Outline}
    (h : s'.outline = s.outline.modify i f ++ more) : s'.size = s.size + more.length := by
  rw [← Scopes.length_outline, h, List.length_append, List.length_modify, Scopes.length_outline]

theorem enter_outline {w : Walk} {active : Nat} (h : active < w.scopes.size) (owner : Location) :
    (w.enter (some active) owner).scopes.outline =
      w.scopes.outline ++ [⟨some active, owner, []⟩] := by
  rw [Walk.enter, Scopes.outline_push]
  simp [h]

mutual

/-- Without an error, resolving a node enrols the names that it declares in its context and opens
the contexts of its blocks. -/
theorem resolve_outline (share : Bool) : ∀ (t : Tree) {active : Nat} {w : Walk},
    active < w.scopes.size → (t.resolve share active w).error = none →
    (t.resolve share active w).walk.scopes.outline =
      w.scopes.outline.modify active (·.mapNames (fun ns => t.namesAfter ns)) ++
        t.outlines active w.scopes.size
  | block site body, active, w, ha, he => by
      have hw := enter_outline ha site.location
      have hsize : (w.enter (some active) site.location).scopes.size = w.scopes.size + 1 := by
        rw [← Scopes.length_outline, hw, List.length_append, Scopes.length_outline]
        rfl
      rw [resolve_block] at he ⊢
      have ih := resolveAll_outline share body (by omega) he
      rw [hw, hsize, ← Scopes.length_outline, modify_last, Scopes.length_outline] at ih
      have hsame : w.scopes.outline.modify active
          (·.mapNames (fun ns => (block site body).namesAfter ns)) = w.scopes.outline :=
        List.modify_id active _
      rw [hsame, outlines, ih, List.append_assoc]
      rfl
  | declaration site name slot init, active, w, ha, he => by
      obtain ⟨o, ho⟩ : ∃ o, w.scopes.outline[active]? = some o :=
        ⟨_, List.getElem?_eq_getElem (by rw [Scopes.length_outline]; exact ha)⟩
      obtain ⟨hdecl, -, -⟩ := Scopes.declare_spec ho name
      have hsize : (w.declare active name).1.scopes.size = w.scopes.size := by
        rw [← Scopes.length_outline, Walk.declare, hdecl, List.length_modify, Scopes.length_outline]
      rw [resolve_declaration] at he ⊢
      have ih := resolve_outline share init (by rw [hsize]; exact ha) he
      rw [hsize] at ih
      refine ih.trans ?_
      rw [Walk.declare, hdecl, List.modify_modify_eq]
      rfl
  | operation site op left right, active, w, ha, he => by
      obtain ⟨hl, hr⟩ := resolve_operation_ok he
      rw [resolve_operation hl]
      have ihl := resolve_outline share left ha hl
      have hsize := size_of_outline ihl
      have ihr := resolve_outline share right (by rw [hsize]; omega) hr
      refine ihr.trans ?_
      rw [ihl, hsize, modify_append_modify (by rw [Scopes.length_outline]; exact ha),
        List.append_assoc]
      rfl
  | identifier site name binding, active, w, _, _ => by
      rw [resolve, outlines, List.append_nil]
      split
      next => exact (List.modify_id active _).symm
      next => exact (List.modify_id active _).symm
  | literal site value constant, active, w, _, _ => by
      rw [resolve, outlines, List.append_nil]
      split
      next => exact (List.modify_id active _).symm
      next =>
        exact (Scopes.outline_register _ _ _ _).trans (List.modify_id active _).symm

/-- Without an error, resolving statements does so for each of them in turn. -/
theorem resolveAll_outline (share : Bool) : ∀ (ts : List Tree) {active : Nat} {w : Walk},
    active < w.scopes.size → (resolveAll share active [] ts w).error = none →
    (resolveAll share active [] ts w).walk.scopes.outline =
      w.scopes.outline.modify active (·.mapNames (fun ns => namesAfterAll ns ts)) ++
        outlinesAll active w.scopes.size ts
  | [], active, w, _, _ => by
      rw [resolveAll, outlinesAll, List.append_nil]
      exact (List.modify_id active _).symm
  | t :: ts, active, w, ha, he => by
      obtain ⟨ht, hts⟩ := resolveAll_cons_ok he
      rw [resolveAll_cons ht]
      have iht := resolve_outline share t ha ht
      have hsize := size_of_outline iht
      have ihts := resolveAll_outline share ts (by rw [hsize]; omega) hts
      refine ihts.trans ?_
      rw [iht, hsize, modify_append_modify (by rw [Scopes.length_outline]; exact ha),
        List.append_assoc]
      rfl

end

end Tree

end BlockScript
