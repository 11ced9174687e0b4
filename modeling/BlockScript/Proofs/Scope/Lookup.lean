import BlockScript.Proofs.Scope.Representation

/-!
# The contexts around a context

From a context one gets outwards by its parent, the parent of its parent, and so on, to a context
that has no parent (`Scopes.Outward`).  Looking a name up goes this way, and finds the name in the
first context that declares it (`Scopes.Outward.lookupFrom_eq_some_iff`).
-/

namespace BlockScript

/-- A list is split at its first entry or at a later one. -/
theorem exists_split_cons {α : Type} {a : α} {l : List α} {P : List α → α → List α → Prop} :
    (∃ xs b ys, a :: l = xs ++ b :: ys ∧ P xs b ys) ↔
      P [] a l ∨ ∃ xs b ys, l = xs ++ b :: ys ∧ P (a :: xs) b ys := by
  constructor
  · rintro ⟨xs, b, ys, hsplit, hP⟩
    cases xs with
    | nil =>
        cases hsplit
        exact .inl hP
    | cons x xs =>
        cases hsplit
        exact .inr ⟨xs, b, ys, rfl, hP⟩
  · rintro (hP | ⟨xs, b, ys, rfl, hP⟩)
    · exact ⟨[], a, l, rfl, hP⟩
    · exact ⟨a :: xs, b, ys, rfl, hP⟩

namespace Scopes

/-- The contexts on the way outwards, each with the next one as its parent, to one without. -/
inductive Outward (s : Scopes) : List Nat → Prop where
  | root {i : Nat} {c : Context} : s.find? i = some c → c.parent = none → Outward s [i]
  | inner {i j : Nat} {js : List Nat} {c : Context} : s.find? i = some c → c.parent = some j →
      Outward s (j :: js) → Outward s (i :: j :: js)

namespace Outward

variable {s : Scopes} {i : Nat} {js : List Nat}

/-- One step on the way: the name is here, or further out. -/
theorem lookupFrom_cons (h : s.Outward (i :: js)) (depth : Nat) (name : String) :
    s.lookupFrom depth i name =
      if name ∈ s.namesAt i then
        some ⟨i, (s.namesAt i).idxOf name, if js.isEmpty then .global else .frame depth⟩
      else js.head?.bind fun j => s.lookupFrom (depth + 1) j name := by
  cases h with
  | @root _ c hc hp =>
      rw [lookupFrom_of_find? hc, namesAt_eq, hc, hp, Context.isGlobal, hp]
      rfl
  | @inner _ j js c hc hp _ =>
      rw [lookupFrom_of_find? hc, namesAt_eq, hc, hp, Context.isGlobal, hp]
      rfl

/-- A name means the variable of the first context on the way that declares it. -/
theorem lookupFrom_eq_some_iff {name : String} {b : Binding} :
    ∀ {js : List Nat} {i depth : Nat}, s.Outward (i :: js) →
      (s.lookupFrom depth i name = some b ↔
        ∃ inner j outer, i :: js = inner ++ j :: outer ∧ name ∈ s.namesAt j ∧
          (∀ k ∈ inner, name ∉ s.namesAt k) ∧
          b = ⟨j, (s.namesAt j).idxOf name,
            if outer.isEmpty then .global else .frame (depth + inner.length)⟩)
  | js, i, depth, h => by
      rw [h.lookupFrom_cons, exists_split_cons]
      by_cases hn : name ∈ s.namesAt i
      · rw [if_pos hn]
        constructor
        · intro hb
          exact .inl ⟨hn, by simp, (Option.some.inj hb).symm⟩
        · rintro (⟨-, -, rfl⟩ | ⟨inner, _, _, _, -, hinner, -⟩)
          · rfl
          · exact absurd hn (hinner i List.mem_cons_self)
      · rw [if_neg hn]
        cases h with
        | root _ _ => simp [hn]
        | @inner _ j js _ _ _ h =>
            have hdepth (n : Nat) : depth + 1 + n = depth + (n + 1) := by omega
            rw [List.head?_cons, Option.bind_some, lookupFrom_eq_some_iff h]
            simp [hn, hdepth]

/-- A name means something if a context on the way declares it. -/
theorem isSome_lookupFrom_iff {name : String} :
    ∀ {js : List Nat} {i depth : Nat}, s.Outward (i :: js) →
      ((s.lookupFrom depth i name).isSome ↔ ∃ j ∈ i :: js, name ∈ s.namesAt j)
  | js, i, depth, h => by
      rw [h.lookupFrom_cons]
      by_cases hn : name ∈ s.namesAt i
      · simp [hn]
      · cases h with
        | root _ _ => simp [hn]
        | @inner _ j js _ _ _ h => simp [hn, isSome_lookupFrom_iff h]

end Outward

end Scopes

end BlockScript
