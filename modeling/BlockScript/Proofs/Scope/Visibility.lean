import BlockScript.Proofs.Scope.Representation

/-!
# What is visible from a context

A context sees its own variables and those of its ancestors, except that a variable hides the ones
of the same name further out.  `Scopes.Ancestor` counts the steps from a context to an ancestor, and
`Scopes.Unhidden` says that a name is not declared on the first so many of them.

The main statement is `Scopes.lookup_visible`.  Looking a name up from a context finds the variable
of the nearest ancestor that declares it, if there is one.  And of all requests that an arena serves
only one kind changes what is found: the first declaration of the name in an ancestor to which no
nearer declaration hides the view.
-/

namespace BlockScript

/-- How code reaches a variable of the context from `depth` frames further in. -/
def Context.reach (c : Context) (depth : Nat) : Reach :=
  if c.parent = none then .global else .frame depth

/-- The next free slot is no variable's. -/
theorem Context.slotOf?_ne_slotCount (c : Context) (name : String) :
    c.slotOf? name ≠ some c.slotCount := by
  intro h
  obtain ⟨hm, hs⟩ := Context.slotOf?_eq_some.1 h
  have hlt := List.idxOf_lt_length_of_mem hm
  rw [hs, Context.slotCount_eq] at hlt
  exact Nat.lt_irrefl _ hlt

namespace Scopes

/-- From the context `i` one gets in `k` steps to a parent to the context `j`. -/
inductive Ancestor (s : Scopes) : Nat → Nat → Nat → Prop where
  | self {i : Nat} {c : Context} : s.find? i = some c → Ancestor s i 0 i
  | parent {i p k j : Nat} {c : Context} : s.find? i = some c → c.parent = some p →
      Ancestor s p k j → Ancestor s i (k + 1) j

/-- No context fewer than `k` steps outside of the context `i` declares the name. -/
def Unhidden (s : Scopes) (i : Nat) (name : String) (k : Nat) : Prop :=
  ∀ n j c, n < k → s.Ancestor i n j → s.find? j = some c → c.slotOf? name = none

/-! ## The nearest declaration -/

section

variable {s : Scopes} {i p : Nat} {c : Context} {name : String}

theorem unhidden_zero (s : Scopes) (i : Nat) (name : String) : s.Unhidden i name 0 := by
  intro n _ _ hn
  exact absurd hn (Nat.not_lt_zero n)

/-- A name that is not declared in a context is hidden from it only where it is from the parent. -/
theorem Unhidden.parent {k : Nat} (h : s.Unhidden p name k) (hc : s.find? i = some c)
    (hn : c.slotOf? name = none) (hp : c.parent = some p) : s.Unhidden i name (k + 1) := by
  intro n j x hlt ha hx
  cases ha with
  | self hi =>
      cases hc.symm.trans hx
      exact hn
  | parent hi hp' ha =>
      cases hc.symm.trans hi
      cases hp.symm.trans hp'
      exact h _ j x (Nat.lt_of_succ_lt_succ hlt) ha hx

/-- A parent is an earlier context of the arena. -/
theorem find?_parent (hc : s.find? i = some c) (hp : c.parent = some p) :
    p < i ∧ ∃ c', s.find? p = some c' := by
  have hi := (Array.getElem?_eq_some_iff.1 hc).1
  have hlt := parent_lt_of_find? hc hp
  exact ⟨hlt, _, Array.getElem?_eq_getElem (Nat.lt_trans hlt hi)⟩

theorem lookupFrom_of_slotOf? {slot : Nat} (hc : s.find? i = some c)
    (hs : c.slotOf? name = some slot) (depth : Nat) :
    s.lookupFrom depth i name = some ⟨i, slot, c.reach depth⟩ := by
  obtain ⟨hm, rfl⟩ := Context.slotOf?_eq_some.1 hs
  rw [lookupFrom_of_find? hc, if_pos hm, Context.reach, Context.isGlobal]
  cases c.parent with
  | none => rfl
  | some p => rfl

theorem lookupFrom_of_slotOf?_none (hc : s.find? i = some c) (hn : c.slotOf? name = none)
    (depth : Nat) :
    s.lookupFrom depth i name = c.parent.bind fun p => s.lookupFrom (depth + 1) p name := by
  rw [lookupFrom_of_find? hc, if_neg (Context.slotOf?_eq_none.1 hn)]

/-- What is found is the variable of the nearest context that declares the name. -/
theorem exists_ancestor_of_lookupFrom {b : Binding} : ∀ {i depth : Nat} {c : Context},
    s.find? i = some c → s.lookupFrom depth i name = some b →
      ∃ k x, s.Ancestor i k b.context ∧ s.Unhidden i name k ∧ s.find? b.context = some x ∧
        x.slotOf? name = some b.slot ∧ b.reach = x.reach (depth + k) := by
  intro i
  induction i using Nat.strongRecOn with
  | ind i ih =>
      intro depth c hc h
      cases hs : c.slotOf? name with
      | some slot =>
          rw [lookupFrom_of_slotOf? hc hs] at h
          cases h
          exact ⟨0, c, .self hc, unhidden_zero s i name, hc, hs, rfl⟩
      | none =>
          rw [lookupFrom_of_slotOf?_none hc hs] at h
          obtain ⟨p, hp, h⟩ := Option.bind_eq_some_iff.1 h
          obtain ⟨hlt, c', hc'⟩ := find?_parent hc hp
          obtain ⟨k, x, ha, hu, hx, hslot, hreach⟩ := ih p hlt hc' h
          refine ⟨k + 1, x, .parent hc hp ha, hu.parent hc hs hp, hx, hslot, ?_⟩
          rw [hreach, Nat.add_right_comm, Nat.add_assoc]

/-- If an ancestor declares a name, something is found. -/
theorem Ancestor.isSome_lookupFrom {k j : Nat} {x : Context} (h : s.Ancestor i k j)
    (hx : s.find? j = some x) (hs : (x.slotOf? name).isSome) :
    ∀ depth, (s.lookupFrom depth i name).isSome := by
  induction h with
  | self hi =>
      intro depth
      obtain ⟨slot, hslot⟩ := Option.isSome_iff_exists.1 hs
      rw [lookupFrom_of_slotOf? hx hslot]
      rfl
  | @parent i p k j c hc hp _ ih =>
      intro depth
      cases hslot : c.slotOf? name with
      | some slot =>
          rw [lookupFrom_of_slotOf? hc hslot]
          rfl
      | none =>
          rw [lookupFrom_of_slotOf?_none hc hslot, hp]
          exact ih hx (depth + 1)

end

/-! ## What requests change -/

theorem slotOf?_addVariable {c : Context} {m : String} (h : c.slotOf? m = none) (name : String) :
    (c.addVariable m).slotOf? name = if name = m then some c.slotCount else c.slotOf? name := by
  have hm := Context.slotOf?_eq_none.1 h
  have hnames : (c.addVariable m).nameList = c.nameList ++ [m] := by
    simp [Context.nameList, Context.addVariable]
  rw [Context.slotOf?_eq, Context.slotOf?_eq, hnames, Context.slotCount_eq]
  by_cases hn : name = m
  · subst hn
    simp [List.idxOf_append_of_notMem hm]
  · by_cases hmem : name ∈ c.nameList
    · simp [hn, hmem, List.idxOf_append_of_mem hmem]
    · simp [hn, hmem]

/-- A declaration changes its context alone, which gets the name in a new slot if it lacks it. -/
theorem exists_find?_declare {s : Scopes} {i : Nat} {c : Context} (hc : s.find? i = some c)
    (d : Nat) (m : String) :
    ∃ c', (s.declare d m).1.find? i = some c' ∧ c'.parent = c.parent ∧
      ∀ name, c'.slotOf? name =
        if d = i ∧ name = m ∧ c.slotOf? name = none then some c.slotCount else c.slotOf? name := by
  have hkeep : ∀ c : Context, (c.addVariable m).parent = c.parent := fun _ => rfl
  by_cases hnew : d = i ∧ c.slotOf? m = none
  · obtain ⟨rfl, hnone⟩ := hnew
    have hdeclare : (s.declare d m).1 = s.modify d (·.addVariable m) hkeep := by
      simp only [declare, hc, hnone]
    refine ⟨c.addVariable m, ?_, rfl, ?_⟩
    · rw [hdeclare, find?_modify, if_pos rfl, hc]
      rfl
    · intro name
      rw [slotOf?_addVariable hnone]
      by_cases hn : name = m
      · subst hn
        simp [hnone]
      · simp [hn]
  · refine ⟨c, ?_, rfl, ?_⟩
    · rw [declare]
      cases hd : s.find? d with
      | none => exact hc
      | some x =>
          cases hs : x.slotOf? m with
          | some slot => simpa only [hs] using hc
          | none =>
              have hne : d ≠ i := by
                rintro rfl
                cases hc.symm.trans hd
                exact hnew ⟨rfl, hs⟩
              simp only [hs]
              exact (find?_modify s d i _ hkeep).trans ((if_neg hne).trans hc)
    · intro name
      rw [if_neg]
      rintro ⟨hd, rfl, hnone⟩
      exact hnew ⟨hd, hnone⟩

/-- What a declaration does to a search: nothing, or the new variable is found. -/
theorem lookupFrom_declare (s : Scopes) (d : Nat) (m name : String) :
    ∀ {i : Nat} {c : Context} (depth : Nat), s.find? i = some c →
      (s.declare d m).1.lookupFrom depth i name = s.lookupFrom depth i name ∨
      m = name ∧ ∃ k x, s.Ancestor i k d ∧ s.Unhidden i name k ∧ s.find? d = some x ∧
        x.slotOf? name = none ∧ (s.declare d m).1.lookupFrom depth i name =
          some ⟨d, x.slotCount, x.reach (depth + k)⟩ := by
  intro i
  induction i using Nat.strongRecOn with
  | ind i ih =>
      intro c depth hc
      obtain ⟨c', hc', hparent, hslots⟩ := exists_find?_declare hc d m
      have hslot := hslots name
      have hreach : c'.reach depth = c.reach depth := by rw [Context.reach, Context.reach, hparent]
      cases hs : c.slotOf? name with
      | some slot =>
          rw [hs, if_neg (by simp)] at hslot
          rw [lookupFrom_of_slotOf? hc hs, lookupFrom_of_slotOf? hc' hslot, hreach]
          exact .inl rfl
      | none =>
          by_cases hnew : d = i ∧ name = m
          · obtain ⟨rfl, rfl⟩ := hnew
            rw [if_pos ⟨rfl, rfl, hs⟩] at hslot
            refine .inr ⟨rfl, 0, c, .self hc, unhidden_zero s d name, hc, hs, ?_⟩
            rw [lookupFrom_of_slotOf? hc' hslot, hreach]
            rfl
          · rw [if_neg (fun h => hnew ⟨h.1, h.2.1⟩), hs] at hslot
            rw [lookupFrom_of_slotOf?_none hc hs, lookupFrom_of_slotOf?_none hc' hslot, hparent]
            cases hp : c.parent with
            | none => exact .inl rfl
            | some p =>
                obtain ⟨hlt, x, hx⟩ := find?_parent hc hp
                obtain hsame | ⟨rfl, k, x, ha, hu, hx, hsx, hfound⟩ := ih p hlt (depth + 1) hx
                · exact .inl hsame
                · refine .inr ⟨rfl, k + 1, x, .parent hc hp ha, hu.parent hc hs hp, hx, hsx, ?_⟩
                  rw [Option.bind_some, hfound, Nat.add_right_comm, Nat.add_assoc]

/-- Opening a context changes nothing that is visible from those that are there. -/
theorem lookupFrom_push (s : Scopes) (parent : Option Nat) (owner : Location) (name : String)
    {i : Nat} (hi : i < s.size) (depth : Nat) :
    (s.push parent owner).lookupFrom depth i name = s.lookupFrom depth i name := by
  refine lookupFrom_congr_of_le name (fun j hj => ?_) depth
  rw [outline_push]
  refine List.getElem?_append_left ?_
  rw [length_outline]
  omega

/-- Registering a constant changes nothing that is visible. -/
theorem lookupFrom_register (s : Scopes) (share : Bool) (home : Nat) (value : Number)
    (name : String) (i depth : Nat) :
    (s.register share home value).1.lookupFrom depth i name = s.lookupFrom depth i name :=
  lookupFrom_congr_of_le name (fun _ _ => by rw [outline_register]) depth

/--
A name means the variable of the nearest ancestor that declares it, and means something exactly if
there is one: the context of the variable, its slot there, and the way to it, which is global if
that context has no parent and otherwise counts the steps to it.  A request that changes this is to
declare the name in an ancestor that does not declare it yet, with no nearer ancestor that does, and
then the name means the new variable, in a slot that was free.
-/
theorem lookup_visible (s : Scopes) {i : Nat} (hi : i < s.size) (name : String) :
    ((s.lookup i name).isSome ↔
      ∃ k j c, s.Ancestor i k j ∧ s.find? j = some c ∧ (c.slotOf? name).isSome) ∧
    (∀ b, s.lookup i name = some b →
      ∃ k c, s.Ancestor i k b.context ∧ s.Unhidden i name k ∧ s.find? b.context = some c ∧
        c.slotOf? name = some b.slot ∧
        b.reach = if c.parent = none then .global else .frame k) ∧
    ∀ q : Request, (s.serve q).1.lookup i name ≠ s.lookup i name →
      ∃ d k c, q = .declare d name ∧ s.Ancestor i k d ∧ s.Unhidden i name k ∧
        s.find? d = some c ∧ c.slotOf? name = none ∧
        (∀ other, c.slotOf? other ≠ some c.slotCount) ∧
        (s.serve q).1.lookup i name =
          some ⟨d, c.slotCount, if c.parent = none then .global else .frame k⟩ := by
  have hc : s.find? i = some s.contexts[i] := Array.getElem?_eq_getElem hi
  have hnearest : ∀ b, s.lookup i name = some b → ∃ k c, s.Ancestor i k b.context ∧
      s.Unhidden i name k ∧ s.find? b.context = some c ∧ c.slotOf? name = some b.slot ∧
      b.reach = c.reach k := by
    intro b hb
    obtain ⟨k, c, h⟩ := exists_ancestor_of_lookupFrom hc hb
    rw [Nat.zero_add] at h
    exact ⟨k, c, h⟩
  refine ⟨⟨?_, ?_⟩, hnearest, ?_⟩
  · intro hsome
    obtain ⟨b, hb⟩ := Option.isSome_iff_exists.1 hsome
    obtain ⟨k, c, ha, -, hfind, hslot, -⟩ := hnearest b hb
    exact ⟨k, b.context, c, ha, hfind, Option.isSome_of_eq_some hslot⟩
  · rintro ⟨k, j, c, ha, hfind, hslot⟩
    exact ha.isSome_lookupFrom hfind hslot 0
  · intro q hne
    cases q with
    | push parent owner => exact absurd (lookupFrom_push s parent owner name hi 0) hne
    | register share home value =>
        exact absurd (lookupFrom_register s share home value name i 0) hne
    | declare d m =>
        obtain hsame | ⟨rfl, k, c, ha, hu, hfind, hslot, hfound⟩ :=
          lookupFrom_declare s d m name 0 hc
        · exact absurd hsame hne
        · rw [Nat.zero_add] at hfound
          exact ⟨d, k, c, rfl, ha, hu, hfind, hslot, c.slotOf?_ne_slotCount, hfound⟩

/-- Three contexts, each in the one before. -/
def threefold : Scopes :=
  (((∅ : Scopes).push none ⟨"main", 1, 1⟩).push (some 0) ⟨"main", 2, 1⟩).push (some 1)
    ⟨"main", 3, 1⟩

/-- From the innermost context a name means a global variable, until the context between declares
the name too. -/
theorem lookup_visible_threefold :
    let s := (threefold.declare 0 "x").1
    2 < s.size ∧ s.lookup 2 "x" = some ⟨0, 0, .global⟩ ∧
      ∃ d k c, Request.declare 1 "x" = .declare d "x" ∧ s.Ancestor 2 k d ∧
        s.Unhidden 2 "x" k ∧ s.find? d = some c ∧ c.slotOf? "x" = none ∧
        (∀ other, c.slotOf? other ≠ some c.slotCount) ∧
        (s.serve (.declare 1 "x")).1.lookup 2 "x" =
          some ⟨d, c.slotCount, if c.parent = none then .global else .frame k⟩ := by
  intro s
  have hopened : ∀ (i line : Nat) (parent : Option Nat),
      threefold.find? i = some ⟨parent, ⟨"main", line, 1⟩, ∅, ∅⟩ →
        ∃ c, s.find? i = some c ∧ c.parent = parent ∧
          c.slotOf? "x" = if 0 = i then some 0 else none := by
    intro i line parent hc
    obtain ⟨c, hfind, hparent, hslot⟩ := exists_find?_declare hc 0 "x"
    refine ⟨c, hfind, hparent, ?_⟩
    rw [hslot]
    simp [Context.slotOf?_eq, Context.slotCount_eq, Context.nameList]
  obtain ⟨c₀, hc₀, hp₀, hs₀⟩ := hopened 0 1 none rfl
  obtain ⟨c₁, hc₁, hp₁, hs₁⟩ := hopened 1 2 (some 0) rfl
  obtain ⟨c₂, hc₂, hp₂, hs₂⟩ := hopened 2 3 (some 1) rfl
  obtain ⟨d₁, hd₁, -, ht₁⟩ := exists_find?_declare hc₁ 1 "x"
  obtain ⟨d₂, hd₂, hq₂, ht₂⟩ := exists_find?_declare hc₂ 1 "x"
  have ht₁ : d₁.slotOf? "x" = some c₁.slotCount := (ht₁ "x").trans (by simp [hs₁])
  have ht₂ : d₂.slotOf? "x" = none := (ht₂ "x").trans (by simp [hs₂])
  have hbefore : s.lookup 2 "x" = some ⟨0, 0, .global⟩ := by
    rw [lookup, lookupFrom_of_slotOf?_none hc₂ hs₂, hp₂, Option.bind_some,
      lookupFrom_of_slotOf?_none hc₁ hs₁, hp₁, Option.bind_some, lookupFrom_of_slotOf? hc₀ hs₀,
      Context.reach, hp₀]
    rfl
  have hne : (s.serve (.declare 1 "x")).1.lookup 2 "x" ≠ s.lookup 2 "x" := by
    rw [hbefore, serve, lookup, lookupFrom_of_slotOf?_none hd₂ ht₂, hq₂, hp₂, Option.bind_some,
      lookupFrom_of_slotOf? hd₁ ht₁]
    simp
  have hsize : 2 < s.size := (Array.getElem?_eq_some_iff.1 hc₂).1
  obtain ⟨-, -, hchange⟩ := lookup_visible s hsize "x"
  exact ⟨hsize, hbefore, hchange _ hne⟩

end Scopes

end BlockScript
