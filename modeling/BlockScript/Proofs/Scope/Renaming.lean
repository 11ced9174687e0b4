import BlockScript.Proofs.Scope.Outline

/-!
# An arena with one variable renamed

Two arenas are compared that differ in one name of one context (`Scopes.RenamedTo`).  The new name
occurs nowhere in the first of them.  Whatever resolution does to an arena, it can do to both, with
the name that the variable has in each: it opens the same contexts, gives the same slots, puts
constants at the same places and finds the same bindings.

A name is looked up from the inside out, so a use of the old name can pass by the renamed variable,
before that is declared, and end further out.  It must not be renamed, and the new name must not be
found on the way of any other.  `Scopes.RenamedTo.lookupFrom` says that both are so: which name to
look for in the second arena depends on the context in which the first one finds it.
-/

namespace BlockScript

/-- The variable `old`, in a slot of a context, gets the name `new`. -/
structure Renaming where
  context : Nat
  slot : Nat
  old : String
  new : String

namespace Renaming

/-- The name that a variable of the context `i` gets. -/
def apply (r : Renaming) (i : Nat) (name : String) : String :=
  if i = r.context ∧ name = r.old then r.new else name

variable {r : Renaming} {i j : Nat} {name : String} {l : List String}

theorem apply_of_ne (h : i ≠ r.context) : r.apply i name = name := if_neg fun h' => h h'.1

theorem apply_inj {n : String} (hn : n ≠ r.new) (hname : name ≠ r.new)
    (h : r.apply i n = r.apply i name) : n = name := by
  simp only [apply] at h
  split at h
  next h₁ =>
    split at h
    next h₂ => rw [h₁.2, h₂.2]
    next => exact absurd h.symm hname
  next =>
    split at h
    next => exact absurd h hn
    next => exact h

theorem mem_map_apply (hl : r.new ∉ l) (hname : name ≠ r.new) :
    r.apply i name ∈ l.map (r.apply i) ↔ name ∈ l := by
  constructor
  · intro h
    obtain ⟨n, hn, he⟩ := List.mem_map.1 h
    have hne : n ≠ r.new := by rintro rfl; exact hl hn
    exact apply_inj hne hname he ▸ hn
  · exact List.mem_map_of_mem

/-- A name that is found in another context is not found here under the name that it has there. -/
theorem apply_not_mem (hij : j ≠ i) (hl : r.new ∉ l) (hname : name ≠ r.new) (h : name ∉ l) :
    r.apply j name ∉ l.map (r.apply i) := by
  intro hm
  obtain ⟨n, hn, he⟩ := List.mem_map.1 hm
  by_cases hi : i = r.context
  · have hj : j ≠ r.context := by rw [← hi]; exact hij
    rw [apply_of_ne hj] at he
    simp only [apply] at he
    split at he
    next => exact hname he.symm
    next => exact h (he ▸ hn)
  · rw [apply_of_ne hi] at he
    simp only [apply] at he
    split at he
    next => exact hl (he ▸ hn)
    next => exact h (he ▸ hn)

theorem idxOf_map_apply (hl : r.new ∉ l) (hname : name ≠ r.new) :
    (l.map (r.apply i)).idxOf (r.apply i name) = l.idxOf name := by
  induction l with
  | nil => rfl
  | cons n l ih =>
      obtain ⟨hn, hl⟩ := not_or.1 (fun h => hl (List.mem_cons.2 h))
      rw [List.map_cons]
      by_cases h : n = name
      · rw [h, List.idxOf_cons_self, List.idxOf_cons_self]
      · have h' : r.apply i n ≠ r.apply i name := fun he => h (apply_inj (Ne.symm hn) hname he)
        rw [List.idxOf_cons_ne _ h, List.idxOf_cons_ne _ h', ih hl]

end Renaming

/-! ## Contexts -/

/-- The second context is the first one with its names changed.  The new name is none of them. -/
structure Context.RenamedTo (r : Renaming) (i : Nat) (c c' : Context) : Prop where
  parent : c'.parent = c.parent
  owner : c'.owner = c.owner
  names : c'.nameList = c.nameList.map (r.apply i)
  constants : c'.constants.entries = c.constants.entries
  fresh : r.new ∉ c.nameList

namespace Context.RenamedTo

variable {r : Renaming} {i : Nat} {c c' : Context}

theorem slotOf? (h : c.RenamedTo r i c') {name : String} (hname : name ≠ r.new) :
    c'.slotOf? (r.apply i name) = c.slotOf? name := by
  simp only [slotOf?_eq, h.names, Renaming.mem_map_apply h.fresh hname,
    Renaming.idxOf_map_apply h.fresh hname]

theorem slotCount (h : c.RenamedTo r i c') : c'.slotCount = c.slotCount := by
  simp [slotCount_eq, h.names]

theorem isGlobal (h : c.RenamedTo r i c') : c'.isGlobal = c.isGlobal := by
  rw [Context.isGlobal, h.parent]
  rfl

theorem addVariable (h : c.RenamedTo r i c') {name : String} (hname : name ≠ r.new) :
    (c.addVariable name).RenamedTo r i (c'.addVariable (r.apply i name)) where
  parent := h.parent
  owner := h.owner
  names := by
    have hnames := h.names
    simp only [nameList] at hnames
    simp [nameList, Context.addVariable, hnames]
  constants := h.constants
  fresh := by
    have hfresh := h.fresh
    simp only [nameList] at hfresh
    simp [nameList, Context.addVariable, hfresh, Ne.symm hname]

theorem addConstant (h : c.RenamedTo r i c') (value : Number) :
    (c.addConstant value).RenamedTo r i (c'.addConstant value) where
  parent := h.parent
  owner := h.owner
  names := h.names
  constants := by simp [Context.addConstant, h.constants]
  fresh := h.fresh

end Context.RenamedTo

/-! ## Arenas -/

/-- The second arena is the first one with one variable renamed. -/
structure Scopes.RenamedTo (r : Renaming) (s s' : Scopes) : Prop where
  size : s'.size = s.size
  find? : ∀ {i : Nat} {c : Context}, s.find? i = some c →
    ∃ c', s'.find? i = some c' ∧ c.RenamedTo r i c'

/-- What is looked up is found in the slot of its name. -/
theorem Scopes.lookupFrom_spec {s : Scopes} {name : String} {b : Binding} {i : Nat} :
    ∀ {depth : Nat}, s.lookupFrom depth i name = some b →
      ∃ c, s.find? b.context = some c ∧ name ∈ c.nameList ∧ c.nameList.idxOf name = b.slot := by
  induction i using Nat.strongRecOn with
  | ind i ih =>
      intro depth hb
      cases hc : s.find? i with
      | none =>
          rw [lookupFrom, dif_neg (Nat.not_lt.2 (Array.getElem?_eq_none_iff.1 hc))] at hb
          cases hb
      | some c =>
          rw [lookupFrom_of_find? hc] at hb
          split at hb
          next hn =>
            cases hb
            exact ⟨c, hc, hn, rfl⟩
          next =>
            obtain ⟨p, hp, hb⟩ := Option.bind_eq_some_iff.1 hb
            exact ih p (parent_lt_of_find? hc hp) hb

namespace Scopes.RenamedTo

variable {r : Renaming} {s s' : Scopes}

theorem find?_none (h : s.RenamedTo r s') {i : Nat} (hi : s.find? i = none) :
    s'.find? i = none := by
  rw [Scopes.find?, Array.getElem?_eq_none_iff] at hi ⊢
  have hsize : s'.contexts.size = s.contexts.size := h.size
  omega

theorem empty (r : Renaming) : RenamedTo r ∅ ∅ where
  size := rfl
  find? h := by cases h

/-- Both arenas open the same contexts. -/
theorem push (h : s.RenamedTo r s') (parent : Option Nat) (owner : Location) :
    (s.push parent owner).RenamedTo r (s'.push parent owner) where
  size := by
    have hsize : s'.contexts.size = s.contexts.size := h.size
    simp [Scopes.size, Scopes.push, hsize]
  find? := by
    intro i c hc
    have hsize : s'.contexts.size = s.contexts.size := h.size
    rw [Scopes.find?, Scopes.push, Array.getElem?_push] at hc ⊢
    rw [hsize]
    split at hc
    next hi =>
      cases hc
      rw [if_pos hi]
      refine ⟨_, rfl, ?_, rfl, rfl, rfl, ?_⟩
      · rw [h.size]
      · simp [Context.nameList]
    next hi =>
      rw [if_neg hi]
      exact h.find? hc

/-- Both arenas follow changes of one context that agree. -/
theorem modify (h : s.RenamedTo r s') {i : Nat} (f f' : Context → Context)
    (hf : ∀ c, (f c).parent = c.parent) (hf' : ∀ c, (f' c).parent = c.parent)
    (hc : ∀ {c c' : Context}, c.RenamedTo r i c' → (f c).RenamedTo r i (f' c')) :
    (s.modify i f hf).RenamedTo r (s'.modify i f' hf') where
  size := by
    have hsize : s'.contexts.size = s.contexts.size := h.size
    simp [Scopes.size, Scopes.modify, hsize]
  find? := by
    intro j c hj
    rw [find?_modify] at hj ⊢
    by_cases hij : i = j
    · subst hij
      rw [if_pos rfl] at hj ⊢
      obtain ⟨c₀, hc₀, rfl⟩ := Option.map_eq_some_iff.1 hj
      obtain ⟨c', hc', hrel⟩ := h.find? hc₀
      exact ⟨f' c', by rw [hc']; rfl, hc hrel⟩
    · rw [if_neg hij] at hj ⊢
      exact h.find? hj

/-- A variable gets the same slot in both. -/
theorem declare (h : s.RenamedTo r s') (i : Nat) {name : String} (hname : name ≠ r.new) :
    (s.declare i name).1.RenamedTo r (s'.declare i (r.apply i name)).1 ∧
      (s'.declare i (r.apply i name)).2 = (s.declare i name).2 := by
  rw [Scopes.declare, Scopes.declare]
  cases hc : s.find? i with
  | none =>
      rw [h.find?_none hc]
      exact ⟨h, rfl⟩
  | some c =>
      obtain ⟨c', hc', hrel⟩ := h.find? hc
      simp only [hc', hrel.slotOf? hname]
      cases c.slotOf? name with
      | some slot => exact ⟨h, rfl⟩
      | none =>
          refine ⟨h.modify (·.addVariable name) (·.addVariable (r.apply i name)) (fun _ => rfl)
            (fun _ => rfl) ?_, hrel.slotCount⟩
          intro c c' hrel
          exact hrel.addVariable hname

theorem root (h : s.RenamedTo r s') (i : Nat) : s'.root i = s.root i := by
  induction i using Nat.strongRecOn with
  | ind i ih =>
      cases hc : s.find? i with
      | none =>
          have hi : ¬ i < s.contexts.size := Nat.not_lt.2 (Array.getElem?_eq_none_iff.1 hc)
          have hi' : ¬ i < s'.contexts.size :=
            Nat.not_lt.2 (Array.getElem?_eq_none_iff.1 (h.find?_none hc))
          rw [Scopes.root, Scopes.root, dif_neg hi, dif_neg hi']
      | some c =>
          obtain ⟨c', hc', hrel⟩ := h.find? hc
          rw [root_of_find? hc, root_of_find? hc', hrel.parent]
          cases hp : c.parent with
          | none => rfl
          | some p => exact ih p (parent_lt_of_find? hc hp)

theorem constants (h : s.RenamedTo r s') : s'.constants = s.constants := by
  simp only [Scopes.constants, global?]
  cases hc : s.find? 0 with
  | none => rw [h.find?_none hc]
  | some c =>
      obtain ⟨c', hc', hrel⟩ := h.find? hc
      rw [hc']
      exact hrel.constants

/-- A constant gets the same place in both. -/
theorem register (h : s.RenamedTo r s') (share : Bool) (i : Nat) (value : Number) :
    (s.register share i value).1.RenamedTo r (s'.register share i value).1 ∧
      (s'.register share i value).2 = (s.register share i value).2 := by
  rw [Scopes.register, Scopes.register, h.root]
  cases hc : s.find? (s.root i) with
  | none =>
      rw [h.find?_none hc]
      exact ⟨h, rfl⟩
  | some c =>
      obtain ⟨c', hc', hrel⟩ := h.find? hc
      have hfind : c'.constants.find? value = c.constants.find? value := by
        rw [Numbering.find?_eq, Numbering.find?_eq, hrel.constants]
      have hsize : c'.constants.size = c.constants.size := by
        rw [Numbering.size, hrel.constants]
        rfl
      simp only [hc', hfind, hsize]
      cases (if share then c.constants.find? value else none) with
      | some place => exact ⟨h, rfl⟩
      | none =>
          refine ⟨h.modify (·.addConstant value) (·.addConstant value) (fun _ => rfl)
            (fun _ => rfl) ?_, rfl⟩
          intro c c' hrel
          exact hrel.addConstant value

/-- A variable that is found in the first arena is found in the second one, under the name that it
has in its context there. -/
theorem lookupFrom (h : s.RenamedTo r s') {name : String} (hname : name ≠ r.new) {b : Binding}
    {i : Nat} : ∀ {depth : Nat}, s.lookupFrom depth i name = some b →
      b.context ≤ i ∧ s'.lookupFrom depth i (r.apply b.context name) = some b := by
  induction i using Nat.strongRecOn with
  | ind i ih =>
      intro depth hb
      cases hc : s.find? i with
      | none =>
          have hi : ¬ i < s.contexts.size := Nat.not_lt.2 (Array.getElem?_eq_none_iff.1 hc)
          rw [Scopes.lookupFrom, dif_neg hi] at hb
          cases hb
      | some c =>
          obtain ⟨c', hc', hrel⟩ := h.find? hc
          rw [lookupFrom_of_find? hc] at hb
          rw [lookupFrom_of_find? hc', hrel.names, hrel.isGlobal, hrel.parent]
          by_cases hn : name ∈ c.nameList
          · rw [if_pos hn] at hb
            cases hb
            refine ⟨Nat.le_refl i, ?_⟩
            rw [if_pos ((Renaming.mem_map_apply hrel.fresh hname).2 hn),
              Renaming.idxOf_map_apply hrel.fresh hname]
          · rw [if_neg hn] at hb
            cases hp : c.parent with
            | none =>
                rw [hp] at hb
                cases hb
            | some p =>
                rw [hp] at hb
                have hlt := parent_lt_of_find? hc hp
                obtain ⟨hle, hfound⟩ := ih p hlt hb
                -- It is found further out, so in another context than this one.
                refine ⟨by omega, ?_⟩
                rw [if_neg (Renaming.apply_not_mem (by omega) hrel.fresh hname hn)]
                exact hfound

end Scopes.RenamedTo

end BlockScript
