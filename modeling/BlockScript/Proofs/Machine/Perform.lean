import BlockScript.Proofs.Machine.Lines

/-!
# Runs as sequences of commands

Without positions and the record of what was dispatched, a run is a sequence of commands performed
one after the other, up to the first that faults (`Machine.perform`).  Running the lines of code
performs its commands (`Machine.runLines_ofInstructions`).  Before that the pool is loaded, and
loading a list of constants stores it as it is unless it is too long (`Machine.load_zipIdx`,
`Machine.load_zipIdx_fault`).
-/

namespace BlockScript

namespace Machine

/-! ## Commands -/

/-- Performs commands in order, up to the first that faults. -/
def perform (limit : Nat) (m : Machine) : List Command → Stepped
  | [] => (m, none)
  | c :: cs =>
    match m.step limit c with
    | (m, some fault) => (m, some fault)
    | (m, none) => perform limit m cs

theorem perform_cons {limit : Nat} {m m' : Machine} {c : Command}
    (h : m.step limit c = (m', none)) (cs : List Command) :
    m.perform limit (c :: cs) = m'.perform limit cs := by
  rw [perform, h]

theorem perform_cons_fault {limit : Nat} {m m' : Machine} {c : Command} {fault : Fault}
    (h : m.step limit c = (m', some fault)) (cs : List Command) :
    m.perform limit (c :: cs) = (m', some fault) := by
  rw [perform, h]

theorem perform_singleton (limit : Nat) (m : Machine) (c : Command) :
    m.perform limit [c] = m.step limit c := by
  rw [perform]
  split
  next h => rw [h]
  next h => rw [h, perform]

theorem perform_append {limit : Nat} {cs : List Command} :
    ∀ {m m' : Machine}, m.perform limit cs = (m', none) → ∀ ds : List Command,
      m.perform limit (cs ++ ds) = m'.perform limit ds := by
  induction cs with
  | nil =>
      intro m m' h ds
      cases h
      rfl
  | cons c cs ih =>
      intro m m' h ds
      rw [List.cons_append]
      cases hstep : m.step limit c with
      | mk m₁ fault =>
          cases fault with
          | none =>
              rw [perform_cons hstep] at h ⊢
              exact ih h ds
          | some fault =>
              rw [perform_cons_fault hstep] at h
              cases h

theorem perform_append_fault {limit : Nat} {cs : List Command} {fault : Fault} :
    ∀ {m m' : Machine}, m.perform limit cs = (m', some fault) → ∀ ds : List Command,
      m.perform limit (cs ++ ds) = (m', some fault) := by
  induction cs with
  | nil =>
      intro m m' h
      cases h
  | cons c cs ih =>
      intro m m' h ds
      rw [List.cons_append]
      cases hstep : m.step limit c with
      | mk m₁ f =>
          cases f with
          | none =>
              rw [perform_cons hstep] at h ⊢
              exact ih h ds
          | some f =>
              rw [perform_cons_fault hstep] at h ⊢
              exact h

theorem perform_cons_ok {limit : Nat} {c : Command} {cs : List Command} {m m' : Machine}
    (h : m.perform limit (c :: cs) = (m', none)) :
    ∃ m₁, m.step limit c = (m₁, none) ∧ m₁.perform limit cs = (m', none) := by
  cases hstep : m.step limit c with
  | mk m₁ fault =>
      cases fault with
      | none => exact ⟨m₁, rfl, (perform_cons hstep cs).symm.trans h⟩
      | some fault =>
          rw [perform_cons_fault hstep] at h
          cases h

/-- Commands that are performed to the end are so part by part. -/
theorem perform_append_ok {limit : Nat} {cs ds : List Command} {m m' : Machine}
    (h : m.perform limit (cs ++ ds) = (m', none)) :
    ∃ m₁, m.perform limit cs = (m₁, none) ∧ m₁.perform limit ds = (m', none) := by
  cases hcs : m.perform limit cs with
  | mk m₁ fault =>
      cases fault with
      | none => exact ⟨m₁, rfl, (perform_append hcs ds).symm.trans h⟩
      | some fault =>
          rw [perform_append_fault hcs] at h
          cases h

/-- Running the lines of instructions performs their commands. -/
theorem runLines_ofInstructions (limit : Nat) {code : List Instruction} :
    ∀ (m : Machine) (dispatched : Array Dispatch) (p : Nat),
      (m.runLines limit dispatched (Line.ofInstructions p code)).machine =
          (m.perform limit (code.map Instruction.command)).1 ∧
        (m.runLines limit dispatched (Line.ofInstructions p code)).error.map RunError.fault =
          (m.perform limit (code.map Instruction.command)).2 := by
  induction code with
  | nil =>
      intro m dispatched p
      exact ⟨rfl, rfl⟩
  | cons i is ih =>
      intro m dispatched p
      rw [Line.ofInstructions, List.map_cons]
      cases hstep : m.step limit i.command with
      | mk m' fault =>
          cases fault with
          | none =>
              rw [perform_cons hstep, runLines_ok hstep]
              exact ih m' _ _
          | some fault =>
              rw [perform_cons_fault hstep, runLines_fault hstep]
              exact ⟨rfl, rfl⟩

/-! ## The pool -/

theorem store_size (s : Slots) (v : Value) : s.store s.cells.size v = ⟨s.cells.push v⟩ := by
  simp [Slots.store]

/-- Loading a list of constants that the pool can hold stores all of them in order. -/
theorem load_zipIdx {l : List Number} :
    ∀ {m : Machine}, m.pool.cells.size + l.length ≤ maxSlot + 1 →
      m.load ((l.zipIdx m.pool.cells.size).map fun (value, place) => ⟨place, value⟩) =
        ({ m with pool := ⟨m.pool.cells ++ (l.map Value.number).toArray⟩ }, none) := by
  induction l with
  | nil =>
      intro m _
      simp [load]
  | cons v l ih =>
      intro m h
      rw [List.length_cons] at h
      have hplace : m.pool.cells.size ≤ maxSlot := by omega
      simp only [List.zipIdx_cons, List.map_cons, load, if_pos hplace, store_size]
      have hsize : (m.pool.cells.push (Value.number v)).size = m.pool.cells.size + 1 :=
        Array.size_push _
      have := ih (m := { m with pool := ⟨m.pool.cells.push (.number v)⟩ })
        (by simp only [hsize]; omega)
      simp only [hsize] at this
      rw [this]
      simp

/-- A list of constants that is too long stops the machine at the first place that the pool lacks,
and only the pool has changed. -/
theorem load_zipIdx_fault {l : List Number} :
    ∀ {m : Machine}, m.pool.cells.size ≤ maxSlot + 1 → maxSlot + 1 < m.pool.cells.size + l.length →
      ∃ pool, m.load ((l.zipIdx m.pool.cells.size).map fun (value, place) => ⟨place, value⟩) =
        ({ m with pool := pool }, some (.constantOutOfRange (maxSlot + 1 : Nat))) := by
  induction l with
  | nil =>
      intro m h h'
      rw [List.length_nil] at h'
      omega
  | cons v l ih =>
      intro m h h'
      rw [List.length_cons] at h'
      simp only [List.zipIdx_cons, List.map_cons, load]
      by_cases hplace : m.pool.cells.size ≤ maxSlot
      · simp only [if_pos hplace, store_size]
        have hsize : (m.pool.cells.push (Value.number v)).size = m.pool.cells.size + 1 :=
          Array.size_push _
        obtain ⟨pool, hload⟩ := ih (m := { m with pool := ⟨m.pool.cells.push (.number v)⟩ })
          (by simp only [hsize]; omega) (by simp only [hsize]; omega)
        simp only [hsize] at hload
        exact ⟨pool, hload⟩
      · have heq : m.pool.cells.size = maxSlot + 1 := by omega
        rw [if_neg hplace]
        exact ⟨m.pool, by simp only [heq]⟩

end Machine

end BlockScript
