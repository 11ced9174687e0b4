import BlockScript.Scope.Basic
import Mathlib.Data.List.Basic
import Mathlib.Data.List.Induction

/-!
# Contexts in outline

The arena of contexts is built by three operations: opening a context, declaring a variable and
registering a constant.  What they do is said here in terms of two lists.  The *outline* of an
arena has one entry for each context, with its parent, its owner and its names in the order of
their slots.  The *pool* is the list of constants of the first context.

A variable or a shared constant is *enrolled*: it keeps the place it has, or goes to the end
(`enroll`).  Its place is `List.idxOf` of the list before, which is the length of the list exactly
for what is not in it.  So one small theory of enrolment serves slots and places alike.
-/

namespace BlockScript

/-! ## Enrolment -/

section

variable {α : Type} [DecidableEq α]

/-- The list with `a` at the end, unless it is there already. -/
def enroll (l : List α) (a : α) : List α := if a ∈ l then l else l ++ [a]

theorem enroll_of_mem {l : List α} {a : α} (h : a ∈ l) : enroll l a = l := if_pos h

theorem enroll_of_not_mem {l : List α} {a : α} (h : a ∉ l) : enroll l a = l ++ [a] := if_neg h

@[simp] theorem mem_enroll {l : List α} {a b : α} : b ∈ enroll l a ↔ b ∈ l ∨ b = a := by
  by_cases h : a ∈ l
  · rw [enroll_of_mem h]
    constructor
    · exact Or.inl
    · rintro (hb | rfl)
      · exact hb
      · exact h
  · rw [enroll_of_not_mem h]
    simp

/-- What is enrolled stays where it is. -/
theorem prefix_enroll (l : List α) (a : α) : l <+: enroll l a := by
  by_cases h : a ∈ l
  · exact ⟨[], by rw [enroll_of_mem h, List.append_nil]⟩
  · exact ⟨[a], (enroll_of_not_mem h).symm⟩

/-- The place of `a` among the enrolled is its place in the list before. -/
theorem getElem?_enroll_idxOf (l : List α) (a : α) : (enroll l a)[l.idxOf a]? = some a := by
  by_cases h : a ∈ l
  · rw [enroll_of_mem h]
    exact List.getElem?_idxOf h
  · rw [enroll_of_not_mem h, List.idxOf_eq_length h]
    simp

/-- A longer list has at every place what was there. -/
theorem getElem?_of_isPrefix {β : Type} {l l' : List β} {i : Nat} {b : β} (h : l <+: l')
    (hi : l[i]? = some b) : l'[i]? = some b := by
  obtain ⟨r, rfl⟩ := h
  rw [List.getElem?_append_left (List.getElem?_eq_some_iff.1 hi).1]
  exact hi

/-- A change of a place that keeps what is there changes nothing. -/
theorem modify_of_fixed {β : Type} {l : List β} {i : Nat} {b : β} {f : β → β}
    (h : l[i]? = some b) (hf : f b = b) : l.modify i f = l := by
  apply List.ext_getElem?
  intro j
  by_cases hj : i = j
  · subst hj
    rw [List.getElem?_modify_eq, h]
    exact congrArg some hf
  · rw [List.getElem?_modify_ne _ _ hj]

theorem idxOf_enroll (l : List α) (a : α) : (enroll l a).idxOf a = l.idxOf a := by
  by_cases h : a ∈ l
  · rw [enroll_of_mem h]
  · rw [enroll_of_not_mem h, List.idxOf_append_of_notMem h, List.idxOf_eq_length h]
    simp

theorem length_enroll (l : List α) (a : α) :
    (enroll l a).length = max l.length (l.idxOf a + 1) := by
  by_cases h : a ∈ l
  · have hlt := List.idxOf_lt_length_of_mem h
    rw [enroll_of_mem h]
    omega
  · rw [enroll_of_not_mem h, List.idxOf_eq_length h, List.length_append, List.length_singleton]
    omega

theorem length_enroll_le {l : List α} {a : α} {n : Nat} (hl : l.length ≤ n) (ha : l.idxOf a < n) :
    (enroll l a).length ≤ n := by
  rw [length_enroll]
  exact Nat.max_le.2 ⟨hl, ha⟩

theorem nodup_enroll {l : List α} (a : α) (h : l.Nodup) : (enroll l a).Nodup := by
  by_cases ha : a ∈ l
  · rw [enroll_of_mem ha]
    exact h
  · rw [enroll_of_not_mem ha, List.nodup_append]
    refine ⟨h, by simp, ?_⟩
    intro b hb c hc he
    rw [List.mem_singleton] at hc
    rw [he, hc] at hb
    exact ha hb

/-- A list without its repetitions is what enrolling its entries in order makes. -/
theorem eraseDups_concat (l : List α) (a : α) :
    (l ++ [a]).eraseDups = enroll l.eraseDups a := by
  rw [List.eraseDups_append]
  by_cases h : a ∈ l
  · rw [enroll_of_mem (List.mem_eraseDups.2 h)]
    simp [List.removeAll, h]
  · rw [enroll_of_not_mem (fun hm => h (List.mem_eraseDups.1 hm))]
    simp only [List.removeAll, List.elem_eq_mem, h, decide_false, Bool.not_false,
      List.filter_cons_of_pos, List.filter_nil]
    rfl

theorem nodup_eraseDups (l : List α) : l.eraseDups.Nodup := by
  induction l using List.reverseRecOn with
  | nil => exact List.nodup_nil
  | append_singleton l a ih =>
      rw [eraseDups_concat]
      exact nodup_enroll a ih

/-- The first place of an entry, as far as there is one. -/
theorem idxOf?_eq (l : List α) (a : α) :
    l.idxOf? a = if a ∈ l then some (l.idxOf a) else none := by
  induction l with
  | nil => rfl
  | cons b l ih =>
      rw [List.idxOf?_cons, ih]
      by_cases h : b = a
      · subst h
        simp
      · rw [List.idxOf_cons_ne l h]
        by_cases ha : a ∈ l
        · simp [h, ha]
        · simp [h, ha, Ne.symm h]

/-- A numbering finds what is enrolled at its place. -/
theorem Numbering.find?_eq_idxOf [Hashable α] (n : Numbering α) (a : α) :
    n.find? a = if a ∈ n.entries.toList then some (n.entries.toList.idxOf a) else none := by
  rw [← idxOf?_eq, Numbering.find?_eq, List.idxOf?, ← List.findIdx?_toArray, Array.toArray_toList]

end

/-! ## The outline of an arena -/

/-- What a context says about names. -/
structure Outline where
  /-- The context around it. -/
  parent : Option Nat
  /-- The place of its block. -/
  owner : Location
  /-- Its names, in the order of their slots. -/
  names : List String
deriving DecidableEq

/-- The outline with other names. -/
def Outline.mapNames (f : List String → List String) (o : Outline) : Outline :=
  { o with names := f o.names }

/-- The names of a context, in the order of their slots. -/
def Context.nameList (c : Context) : List String := c.names.entries.toList

/-- The constants of a context, in the order of their places. -/
def Context.constantList (c : Context) : List Number := c.constants.entries.toList

/-- The outline of one context. -/
def Context.outline (c : Context) : Outline := ⟨c.parent, c.owner, c.nameList⟩

theorem Context.slotOf?_eq (c : Context) (name : String) :
    c.slotOf? name = if name ∈ c.nameList then some (c.nameList.idxOf name) else none :=
  c.names.find?_eq_idxOf name

theorem Context.slotOf?_eq_some {c : Context} {name : String} {slot : Nat} :
    c.slotOf? name = some slot ↔ name ∈ c.nameList ∧ c.nameList.idxOf name = slot := by
  simp [Context.slotOf?_eq]

theorem Context.slotOf?_eq_none {c : Context} {name : String} :
    c.slotOf? name = none ↔ name ∉ c.nameList := by
  simp [Context.slotOf?_eq]

theorem Context.mem_slots {c : Context} {name : String} {slot : Nat} :
    (name, slot) ∈ c.slots ↔ c.nameList[slot]? = some name :=
  List.mem_zipIdx_iff_getElem?

/-- Of names without repetitions, the slot of a name is the place where it stands. -/
theorem Context.slotOf?_eq_some_iff {c : Context} (h : c.nameList.Nodup) {name : String}
    {slot : Nat} : c.slotOf? name = some slot ↔ c.nameList[slot]? = some name := by
  rw [Context.slotOf?_eq_some]
  constructor
  · rintro ⟨hm, rfl⟩
    exact List.getElem?_idxOf hm
  · intro hn
    obtain ⟨hlt, rfl⟩ := List.getElem?_eq_some_iff.1 hn
    exact ⟨List.getElem_mem hlt, h.idxOf_getElem slot hlt⟩

theorem Context.placeOf?_eq (c : Context) (value : Number) :
    c.constants.find? value =
      if value ∈ c.constantList then some (c.constantList.idxOf value) else none :=
  c.constants.find?_eq_idxOf value

theorem Context.slotCount_eq (c : Context) : c.slotCount = c.nameList.length := by
  rw [Context.slotCount, Numbering.size, Context.nameList, Array.length_toList]

theorem Context.outline_addVariable {c : Context} {name : String} (h : name ∉ c.nameList) :
    (c.addVariable name).outline = c.outline.mapNames (enroll · name) := by
  have he : enroll c.nameList name = c.nameList ++ [name] := enroll_of_not_mem h
  simp only [Outline.mapNames, Context.outline, Context.nameList] at he ⊢
  rw [he]
  simp [Context.addVariable]

namespace Scopes

/-- The outlines of all contexts, in the order in which they were opened. -/
def outline (s : Scopes) : List Outline := s.contexts.toList.map Context.outline

/-- The constants of the first context. -/
def pool (s : Scopes) : List Number := s.constants.toList

theorem length_outline (s : Scopes) : s.outline.length = s.size := by
  simp [outline, size]

theorem getElem?_outline (s : Scopes) (i : Nat) :
    s.outline[i]? = (s.find? i).map Context.outline := by
  simp [outline, find?]

theorem find?_of_outline {s : Scopes} {i : Nat} {o : Outline} (h : s.outline[i]? = some o) :
    ∃ c, s.find? i = some c ∧ c.outline = o := by
  rw [getElem?_outline] at h
  exact Option.map_eq_some_iff.1 h

/-! ## Opening a context -/

@[simp] theorem outline_push (s : Scopes) (parent : Option Nat) (owner : Location) :
    (s.push parent owner).outline = s.outline ++ [⟨parent.filter (· < s.size), owner, []⟩] := by
  simp [outline, push, Context.outline, Context.nameList]

theorem pool_push {s : Scopes} (parent : Option Nat) (owner : Location) (h : 0 < s.size) :
    (s.push parent owner).pool = s.pool := by
  have hs : 0 ≠ s.contexts.size := Nat.ne_of_lt h
  have hf : (s.push parent owner).find? 0 = s.find? 0 := by
    rw [find?, find?, push, Array.getElem?_push, if_neg hs]
  rw [pool, constants, global?, hf]
  rfl

/-! ## Changing a context -/

theorem find?_modify (s : Scopes) (i j : Nat) (f : Context → Context)
    (hf : ∀ c, (f c).parent = c.parent) :
    (s.modify i f hf).find? j = if i = j then (s.find? j).map f else s.find? j := by
  simp [find?, modify, Array.getElem?_modify]

/-- Changes of a context that keep its constants do not reach the pool. -/
theorem pool_modify_names (s : Scopes) (i : Nat) (f : Context → Context)
    (hf : ∀ c, (f c).parent = c.parent) (hc : ∀ c, (f c).constants = c.constants) :
    (s.modify i f hf).pool = s.pool := by
  simp only [pool, constants, global?, find?_modify]
  by_cases hi : i = 0
  · rw [if_pos hi]
    cases s.find? 0 with
    | none => rfl
    | some c => simp [hc]
  · rw [if_neg hi]

/-- The outline follows a change of a context. -/
theorem outline_modify {s : Scopes} {i : Nat} {f : Context → Context}
    (hf : ∀ c, (f c).parent = c.parent) {g : Outline → Outline}
    (hg : ∀ c, s.find? i = some c → (f c).outline = g c.outline) :
    (s.modify i f hf).outline = s.outline.modify i g := by
  apply List.ext_getElem?
  intro j
  rw [getElem?_outline, find?_modify]
  by_cases hj : i = j
  · subst hj
    rw [if_pos rfl, List.getElem?_modify_eq, getElem?_outline]
    cases hc : s.find? i with
    | none => rfl
    | some c => exact congrArg some (hg c hc)
  · rw [if_neg hj, List.getElem?_modify_ne _ _ hj, getElem?_outline]

/-! ## Declaring a variable -/

/-- A variable is enrolled among the names of its context, and its slot is its place there. -/
theorem declare_spec {s : Scopes} {i : Nat} {o : Outline} (h : s.outline[i]? = some o)
    (name : String) :
    (s.declare i name).1.outline = s.outline.modify i (·.mapNames (enroll · name)) ∧
      (s.declare i name).2 = o.names.idxOf name ∧ (s.declare i name).1.pool = s.pool := by
  obtain ⟨c, hc, rfl⟩ := find?_of_outline h
  rw [declare, hc]
  by_cases hn : name ∈ c.nameList
  · have hslot : c.slotOf? name = some (c.nameList.idxOf name) := by
      rw [Context.slotOf?_eq, if_pos hn]
    simp only [hslot]
    have hsame : c.outline.mapNames (enroll · name) = c.outline := by
      simp only [Outline.mapNames, Context.outline, enroll_of_mem hn]
    exact ⟨(modify_of_fixed h hsame).symm, rfl, trivial⟩
  · have hslot : c.slotOf? name = none := Context.slotOf?_eq_none.2 hn
    simp only [hslot]
    refine ⟨outline_modify _ ?_, ?_, pool_modify_names _ _ _ _ (fun _ => rfl)⟩
    · intro c' hc'
      cases hc.symm.trans hc'
      exact Context.outline_addVariable hn
    · rw [Context.slotCount_eq]
      exact (List.idxOf_eq_length hn).symm

end Scopes

/-! ## Looking names up

From the context of a block one sees its own names and those of the blocks around it.  The contexts
on the way out end with the first one, which holds the global variables. -/

/-- From the context `i` the names of the contexts from the inside out are `Γ`. -/
inductive Visible (os : List Outline) : Nat → List (List String) → Prop where
  | root {o : Outline} : os[0]? = some o → o.parent = none → Visible os 0 [o.names]
  | inner {i p : Nat} {o : Outline} {Γ : List (List String)} :
      os[i]? = some o → o.parent = some p → p < i → Visible os p Γ → Visible os i (o.names :: Γ)

/-- Where code finds a name, from `depth` blocks further in: the slot in the innermost block that
has it, and the way there. -/
def locate (depth : Nat) (name : String) : List (List String) → Option (Nat × Reach)
  | [] => none
  | ns :: Γ =>
    if name ∈ ns then some (ns.idxOf name, if Γ.isEmpty then .global else .frame depth)
    else locate (depth + 1) name Γ

namespace Visible

theorem find?_zero {s : Scopes} {i : Nat} {Γ : List (List String)} (h : Visible s.outline i Γ) :
    ∃ c, s.find? 0 = some c := by
  induction h with
  | root ho _ =>
      obtain ⟨c, hc, -⟩ := Scopes.find?_of_outline ho
      exact ⟨c, hc⟩
  | inner _ _ _ _ ih => exact ih

theorem ne_nil {os : List Outline} {i : Nat} {Γ : List (List String)} (h : Visible os i Γ) :
    Γ ≠ [] := by
  cases h with
  | root _ _ => simp
  | inner _ _ _ _ => simp

theorem lt_length {os : List Outline} {i : Nat} {Γ : List (List String)} (h : Visible os i Γ) :
    i < os.length := by
  cases h with
  | root ho _ => exact (List.getElem?_eq_some_iff.1 ho).1
  | inner ho _ _ _ => exact (List.getElem?_eq_some_iff.1 ho).1

theorem lt_size {s : Scopes} {i : Nat} {Γ : List (List String)} (h : Visible s.outline i Γ) :
    i < s.size := by
  rw [← Scopes.length_outline]
  exact h.lt_length

/-- The innermost names are those of the context looked from. -/
theorem innermost {os : List Outline} {i : Nat} {ns : List String} {Γ : List (List String)}
    (h : Visible os i (ns :: Γ)) : ∃ o, os[i]? = some o ∧ o.names = ns := by
  cases h with
  | root ho _ => exact ⟨_, ho, rfl⟩
  | inner ho _ _ _ => exact ⟨_, ho, rfl⟩

/-- What is visible depends on the contexts up to the one looked from. -/
theorem congr {os os' : List Outline} {i : Nat} {Γ : List (List String)} (h : Visible os i Γ)
    (hs : ∀ j, j ≤ i → os'[j]? = os[j]?) : Visible os' i Γ := by
  induction h with
  | root ho hp => exact .root ((hs 0 (Nat.le_refl 0)).trans ho) hp
  | inner ho hp hlt _ ih =>
      refine .inner ((hs _ (Nat.le_refl _)).trans ho) hp hlt (ih ?_)
      intro j hj
      exact hs j (by omega)

/-- New contexts hide nothing. -/
theorem append {os : List Outline} {i : Nat} {Γ : List (List String)} (h : Visible os i Γ)
    (more : List Outline) : Visible (os ++ more) i Γ := by
  refine h.congr ?_
  intro j hj
  have := h.lt_length
  exact List.getElem?_append_left (by omega)

/-- From a new context one sees what its parent sees. -/
theorem push {os : List Outline} {i : Nat} {Γ : List (List String)} (h : Visible os i Γ)
    (owner : Location) : Visible (os ++ [⟨some i, owner, []⟩]) os.length ([] :: Γ) :=
  .inner (o := ⟨some i, owner, []⟩) (by simp) rfl h.lt_length (h.append _)

/-- A change of names in a context is seen from it, as the change of the innermost names. -/
theorem mapNames {os : List Outline} {i : Nat} {ns : List String} {Γ : List (List String)}
    (h : Visible os i (ns :: Γ)) (f : List String → List String) :
    Visible (os.modify i (·.mapNames f)) i (f ns :: Γ) := by
  cases h with
  | @root o ho hp =>
      refine .root (o := o.mapNames f) ?_ hp
      rw [List.getElem?_modify_eq, ho]
      rfl
  | @inner _ p o _ ho hp hlt hv =>
      refine .inner (o := o.mapNames f) ?_ hp hlt (hv.congr ?_)
      · rw [List.getElem?_modify_eq, ho]
        rfl
      · intro j hj
        exact List.getElem?_modify_ne _ _ (by omega)

end Visible

namespace Scopes

theorem parent_lt_of_find? {s : Scopes} {i p : Nat} {c : Context} (h : s.find? i = some c)
    (hp : c.parent = some p) : p < i := by
  obtain ⟨hi, rfl⟩ := Array.getElem?_eq_some_iff.1 h
  exact s.parent_lt i hi p hp

/-- One step of the search for a name. -/
theorem lookupFrom_of_find? {s : Scopes} {i : Nat} {c : Context} (h : s.find? i = some c)
    (depth : Nat) (name : String) :
    s.lookupFrom depth i name =
      if name ∈ c.nameList then
        some ⟨i, c.nameList.idxOf name, if c.isGlobal then .global else .frame depth⟩
      else c.parent.bind (fun p => s.lookupFrom (depth + 1) p name) := by
  obtain ⟨hi, rfl⟩ := Array.getElem?_eq_some_iff.1 h
  rw [lookupFrom, dif_pos hi, Context.slotOf?_eq]
  by_cases hn : name ∈ s.contexts[i].nameList
  · rw [if_pos hn, if_pos hn]
  · rw [if_neg hn, if_neg hn]
    dsimp only
    split
    next p hp => rw [hp]; rfl
    next hp => rw [hp]; rfl

/-- What a name means depends on the outlines of the contexts up to the one it is looked up from. -/
theorem lookupFrom_congr_of_le {s s' : Scopes} (name : String) {i : Nat} :
    (∀ j, j ≤ i → s'.outline[j]? = s.outline[j]?) → ∀ depth,
      s'.lookupFrom depth i name = s.lookupFrom depth i name := by
  induction i using Nat.strongRecOn with
  | ind i ih =>
      intro h depth
      have hi := h i (Nat.le_refl i)
      cases hc : s.find? i with
      | none =>
          have hc' : s'.find? i = none := by
            rw [getElem?_outline, getElem?_outline, hc] at hi
            exact Option.map_eq_none_iff.1 hi
          have hout {s : Scopes} (hc : s.find? i = none) : ¬ i < s.contexts.size :=
            Nat.not_lt.2 (Array.getElem?_eq_none_iff.1 hc)
          rw [lookupFrom, lookupFrom, dif_neg (hout hc), dif_neg (hout hc')]
      | some c =>
          rw [getElem?_outline, getElem?_outline, hc] at hi
          obtain ⟨c', hc', hout⟩ := Option.map_eq_some_iff.1 hi
          have hnames : c'.nameList = c.nameList := congrArg Outline.names hout
          have hparent : c'.parent = c.parent := congrArg Outline.parent hout
          rw [lookupFrom_of_find? hc, lookupFrom_of_find? hc', hnames, Context.isGlobal, hparent]
          cases hp : c.parent with
          | none => simp [Context.isGlobal, hp]
          | some p =>
              obtain ⟨hlt, rfl⟩ := Array.getElem?_eq_some_iff.1 hc
              have hp_lt : p < i := s.parent_lt i hlt p hp
              have hbelow := ih p hp_lt (fun j hj => h j (Nat.le_trans hj (Nat.le_of_lt hp_lt)))
              simp [Context.isGlobal, hp, hbelow]

/-- One step of the way to the outermost context. -/
theorem root_of_find? {s : Scopes} {i : Nat} {c : Context} (h : s.find? i = some c) :
    s.root i = c.parent.elim i s.root := by
  obtain ⟨hi, rfl⟩ := Array.getElem?_eq_some_iff.1 h
  rw [root, dif_pos hi]
  split
  next p hp => rw [hp]; rfl
  next hp => rw [hp]; rfl

theorem root_of_visible {s : Scopes} {i : Nat} {Γ : List (List String)}
    (h : Visible s.outline i Γ) : s.root i = 0 := by
  induction h with
  | root ho hp =>
      obtain ⟨c, hc, rfl⟩ := find?_of_outline ho
      have hpar : c.parent = none := hp
      rw [root_of_find? hc, hpar]
      rfl
  | @inner i p o Γ ho hp _ _ ih =>
      obtain ⟨c, hc, rfl⟩ := find?_of_outline ho
      have hpar : c.parent = some p := hp
      rw [root_of_find? hc, hpar]
      exact ih

/-- Looking a name up finds what code can reach. -/
theorem lookupFrom_eq_locate {s : Scopes} {i : Nat} {Γ : List (List String)}
    (h : Visible s.outline i Γ) (name : String) :
    ∀ depth,
      (s.lookupFrom depth i name).map (fun b => (b.slot, b.reach)) = locate depth name Γ := by
  induction h with
  | root ho hp =>
      intro depth
      obtain ⟨c, hc, rfl⟩ := find?_of_outline ho
      have hpar : c.parent = none := hp
      rw [lookupFrom_of_find? hc, hpar, locate, locate]
      by_cases hn : name ∈ c.nameList
      · rw [if_pos hn]
        simp [Context.isGlobal, hpar, Context.outline, hn]
      · rw [if_neg hn]
        simp [Context.outline, hn]
  | @inner i p o Γ ho hp _ hv ih =>
      intro depth
      obtain ⟨c, hc, rfl⟩ := find?_of_outline ho
      have hpar : c.parent = some p := hp
      have hΓ : Γ.isEmpty = false := by simpa using hv.ne_nil
      rw [lookupFrom_of_find? hc, hpar, locate, hΓ]
      by_cases hn : name ∈ c.nameList
      · rw [if_pos hn]
        simp [Context.isGlobal, hpar, Context.outline, hn]
      · rw [if_neg hn]
        simp only [Context.outline, hn, if_false]
        exact ih (depth + 1)

end Scopes

/-! ## Registering a constant -/

namespace Pool

/-- The pool with one more constant.  If `share` holds, one that is there already serves again. -/
def add (share : Bool) (pool : List Number) (value : Number) : List Number :=
  if share then enroll pool value else pool ++ [value]

/-- The place of the constant that `Pool.add` adds. -/
def place (share : Bool) (pool : List Number) (value : Number) : Nat :=
  if share then pool.idxOf value else pool.length

theorem prefix_add (share : Bool) (pool : List Number) (value : Number) :
    pool <+: add share pool value := by
  cases share with
  | true => exact prefix_enroll pool value
  | false => exact List.prefix_append pool [value]

/-- A constant stands at its place. -/
theorem getElem?_add_place (share : Bool) (pool : List Number) (value : Number) :
    (add share pool value)[place share pool value]? = some value := by
  cases share with
  | true => exact getElem?_enroll_idxOf pool value
  | false => simp [add, place]

/-- What is in the pool then was there before, or is the constant at its place. -/
theorem getElem?_add_iff (share : Bool) (pool : List Number) (value : Number) (i : Nat)
    (other : Number) :
    (add share pool value)[i]? = some other ↔
      pool[i]? = some other ∨ place share pool value = i ∧ value = other := by
  constructor
  · intro h
    by_cases hv : share = true ∧ value ∈ pool
    · rw [add, if_pos hv.1, enroll_of_mem hv.2] at h
      exact .inl h
    · have hadd : add share pool value = pool ++ [value] := by
        cases share with
        | false => rfl
        | true => exact enroll_of_not_mem (fun hm => hv ⟨rfl, hm⟩)
      have hplace : place share pool value = pool.length := by
        cases share with
        | false => rfl
        | true => exact List.idxOf_eq_length (fun hm => hv ⟨rfl, hm⟩)
      rw [hadd, List.getElem?_append] at h
      rw [hplace]
      split at h
      next => exact .inl h
      next hi =>
        rw [List.getElem?_singleton] at h
        split at h
        next hz => exact .inr ⟨by omega, Option.some.inj h⟩
        next => cases h
  · rintro (h | ⟨rfl, rfl⟩)
    · exact getElem?_of_isPrefix (prefix_add share pool value) h
    · exact getElem?_add_place share pool value

end Pool

namespace Scopes

/-- The constants of every context. -/
def pools (s : Scopes) : List (List Number) := s.contexts.toList.map Context.constantList

theorem getElem?_pools (s : Scopes) (i : Nat) :
    s.pools[i]? = (s.find? i).map Context.constantList := by
  simp [pools, find?]

theorem pool_eq (s : Scopes) : s.pool = s.pools[0]?.getD [] := by
  rw [getElem?_pools, pool, constants, global?]
  cases s.find? 0 with
  | none => rfl
  | some c => rfl

/-- The pools follow a change of a context. -/
theorem pools_modify {s : Scopes} {i : Nat} {f : Context → Context}
    (hf : ∀ c, (f c).parent = c.parent) {g : List Number → List Number}
    (hg : ∀ c, s.find? i = some c → (f c).constantList = g c.constantList) :
    (s.modify i f hf).pools = s.pools.modify i g := by
  apply List.ext_getElem?
  intro j
  rw [getElem?_pools, find?_modify]
  by_cases hj : i = j
  · subst hj
    rw [if_pos rfl, List.getElem?_modify_eq, getElem?_pools]
    cases hc : s.find? i with
    | none => rfl
    | some c => exact congrArg some (hg c hc)
  · rw [if_neg hj, List.getElem?_modify_ne _ _ hj, getElem?_pools]

/-- Constants leave the names alone. -/
theorem outline_register (s : Scopes) (share : Bool) (i : Nat) (value : Number) :
    (s.register share i value).1.outline = s.outline := by
  have hf : ∀ c : Context, (c.addConstant value).parent = c.parent := fun _ => rfl
  rw [register]
  dsimp only
  split
  next => rfl
  next =>
    split
    next => rfl
    next => exact (outline_modify hf (fun _ _ => rfl)).trans (List.modify_id _ s.outline)

/-- A constant goes to the pool of the outermost context around its code. -/
theorem register_pools {s : Scopes} {i : Nat} {pool : List Number}
    (h : s.pools[s.root i]? = some pool) (share : Bool) (value : Number) :
    (s.register share i value).1.pools = s.pools.modify (s.root i) (Pool.add share · value) ∧
      (s.register share i value).2 = Pool.place share pool value := by
  obtain ⟨c, hc, rfl⟩ := Option.map_eq_some_iff.1 ((getElem?_pools s _).symm.trans h)
  simp only [register, hc, Context.placeOf?_eq]
  by_cases hv : share = true ∧ value ∈ c.constantList
  · obtain ⟨rfl, hmem⟩ := hv
    simp only [if_true, if_pos hmem]
    exact ⟨(modify_of_fixed h (enroll_of_mem hmem)).symm, rfl⟩
  · have hnone : (if share = true then
        if value ∈ c.constantList then some (c.constantList.idxOf value) else none
        else none) = none := by
      cases share with
      | false => rfl
      | true => exact if_neg (fun hmem => hv ⟨rfl, hmem⟩)
    have hadd : (c.addConstant value).constantList = c.constantList ++ [value] := by
      simp [Context.constantList, Context.addConstant]
    simp only [hnone]
    refine ⟨pools_modify _ ?_, ?_⟩
    · intro c' hc'
      cases hc.symm.trans hc'
      cases share with
      | false => exact hadd
      | true => exact hadd.trans (enroll_of_not_mem (fun hmem => hv ⟨rfl, hmem⟩)).symm
    · cases share with
      | false => rfl
      | true => exact (List.idxOf_eq_length (fun hmem => hv ⟨rfl, hmem⟩)).symm

/-- A constant goes to the pool, from wherever it is registered. -/
theorem register_spec {s : Scopes} {i : Nat} {Γ : List (List String)}
    (h : Visible s.outline i Γ) (share : Bool) (value : Number) :
    (s.register share i value).1.pool = Pool.add share s.pool value ∧
      (s.register share i value).2 = Pool.place share s.pool value := by
  obtain ⟨c, hc⟩ := h.find?_zero
  have hzero : s.pools[0]? = some c.constantList := by rw [getElem?_pools, hc]; rfl
  have hroot : s.pools[s.root i]? = some c.constantList := by rw [root_of_visible h, hzero]
  obtain ⟨hpools, hplace⟩ := register_pools hroot share value
  rw [hplace, pool_eq, pool_eq, hpools, root_of_visible h, List.getElem?_modify_eq, hzero]
  exact ⟨rfl, rfl⟩

end Scopes

end BlockScript
