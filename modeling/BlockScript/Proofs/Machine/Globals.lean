import BlockScript.Proofs.Machine.Effect
import BlockScript.Proofs.Machine.Execution

/-!
# The number of global slots after a run

A machine keeps the global slots up to the last one stored.  Only stores into global slots change
them, and compiled code has such stores for the declarations of the outermost block alone.  The
slots of these are the places of the names, which are enrolled in order, so a run that succeeds
leaves one slot for each name (`Program.size_globals`).
-/

namespace BlockScript

/-! ## Commands -/

/-- The command stores nothing into a global slot. -/
def Command.SparesGlobals (c : Command) : Prop := ∀ slot, c ≠ .storeGlobal slot

namespace Machine

theorem step_globals {c : Command} (h : c.SparesGlobals) {limit : Nat} {m m' : Machine}
    (hs : m.step limit c = (m', none)) : m'.globals = m.globals := by
  have heffect := m.step_effect limit c
  rw [hs] at heffect
  cases heffect with
  | storeGlobal _ _ => exact absurd rfl (h _)
  | loadInteger _ => rfl
  | loadConstant _ _ => rfl
  | loadOuterSlot _ _ _ => rfl
  | loadSlot _ _ _ => rfl
  | enter => rfl
  | leave _ => rfl
  | loadGlobal _ _ => rfl
  | storeSlot _ _ _ => rfl
  | arithmetic _ _ _ _ => rfl

theorem perform_globals {code : List Instruction} (h : ∀ i ∈ code, i.command.SparesGlobals)
    {limit : Nat} :
    ∀ {m m' : Machine}, m.perform limit (code.map Instruction.command) = (m', none) →
      m'.globals = m.globals := by
  induction code with
  | nil =>
      intro m m' hp
      cases hp
      rfl
  | cons i code ih =>
      intro m m' hp
      obtain ⟨m₁, hstep, hp⟩ := perform_cons_ok hp
      rw [ih (fun j hj => h j (List.mem_cons_of_mem i hj)) hp,
        step_globals (h i (List.mem_cons_self ..)) hstep]

/-- A store into a global slot makes room up to the slot. -/
theorem size_globals_storeGlobal {limit slot : Nat} {m m' : Machine}
    (h : m.step limit (.storeGlobal slot) = (m', none)) :
    m'.globals.size = max m.globals.size (slot + 1) := by
  have heffect := m.step_effect limit (.storeGlobal slot)
  rw [h] at heffect
  cases heffect with
  | storeGlobal hslot _ =>
      rw [slot?_natCast] at hslot
      split at hslot
      next =>
        cases hslot
        exact m.globals.size_store slot _
      next => cases hslot

end Machine

/-- A store in the code of an inner block goes to its frame. -/
theorem storeInto_sparesGlobals {Γ : List (List String)} (h : Γ ≠ []) (slot : Nat) :
    (storeInto Γ slot).command.SparesGlobals := by
  cases Γ with
  | nil => exact absurd rfl h
  | cons ns Γ => exact fun _ => Command.noConfusion

/-! ## Code -/

theorem LowersExpression.sparesGlobals {share : Bool} {Γ : List (List String)}
    {pool pool' : List Number} {t : Tree} {code : List Instruction}
    (h : LowersExpression share Γ pool t code pool') :
    ∀ i ∈ code, i.command.SparesGlobals := by
  induction h with
  | inline _ =>
      intro i hi
      cases List.mem_singleton.1 hi
      exact fun _ => Command.noConfusion
  | constant _ =>
      intro i hi
      cases List.mem_singleton.1 hi
      exact fun _ => Command.noConfusion
  | @identifier _ _ _ _ slot reach _ =>
      intro i hi
      cases List.mem_singleton.1 hi
      cases reach with
      | global => exact fun _ => Command.noConfusion
      | frame depth =>
          cases depth with
          | zero => exact fun _ => Command.noConfusion
          | succ depth => exact fun _ => Command.noConfusion
  | operation _ _ ihl ihr =>
      intro i hi
      rw [List.mem_append, List.mem_append, List.mem_singleton] at hi
      obtain (hi | hi) | rfl := hi
      · exact ihl i hi
      · exact ihr i hi
      · rw [Machine.command_arithmetic]
        exact fun _ => Command.noConfusion

/-- Code of an inner block spares the global slots. -/
theorem Lowers.sparesGlobals {share : Bool} {ns : List String} {Γ : List (List String)}
    {pool pool' : List Number} {ts : List Tree} {code : List Instruction}
    (h : Lowers share ns Γ pool ts code pool') (hΓ : Γ ≠ []) :
    ∀ i ∈ code, i.command.SparesGlobals := by
  induction h with
  | nil => exact fun i hi => nomatch hi
  | declaration hinit _ ih =>
      intro i hi
      rw [List.mem_append, List.mem_cons] at hi
      obtain hi | rfl | hi := hi
      · exact hinit.sparesGlobals i hi
      · exact storeInto_sparesGlobals hΓ _
      · exact ih hΓ i hi
  | block _ _ ihb ih =>
      intro i hi
      rw [List.cons_append, List.mem_cons, List.mem_append, List.mem_cons] at hi
      obtain rfl | hi | rfl | hi := hi
      · exact fun _ => Command.noConfusion
      · exact ihb (List.cons_ne_nil _ _) i hi
      · exact fun _ => Command.noConfusion
      · exact ih hΓ i hi

/-- Code of the outermost block makes a global slot for each name. -/
theorem Lowers.size_globals {share : Bool} {ns : List String} {Γ : List (List String)}
    {pool pool' : List Number} {ts : List Tree} {code : List Instruction}
    (h : Lowers share ns Γ pool ts code pool') (hΓ : Γ = []) {limit : Nat} :
    ∀ {m m' : Machine}, m.globals.size = ns.length →
      m.perform limit (code.map Instruction.command) = (m', none) →
      m'.globals.size = (Tree.namesAfterAll ns ts).length := by
  induction h with
  | nil =>
      intro m m' hsize hp
      cases hp
      exact hsize
  | @declaration ns Γ _ _ _ _ name _ init ts code₁ code₂ hinit hrest ih =>
      intro m m' hsize hp
      subst hΓ
      rw [List.map_append, List.map_cons] at hp
      obtain ⟨m₁, hp₁, hp⟩ := Machine.perform_append_ok hp
      obtain ⟨m₂, hstore, hp₃⟩ := Machine.perform_cons_ok hp
      have hstore' : m₁.step limit (.storeGlobal (ns.idxOf name : Nat)) = (m₂, none) := hstore
      have hsize₂ : m₂.globals.size = (enroll ns name).length := by
        rw [Machine.size_globals_storeGlobal hstore',
          Machine.perform_globals hinit.sparesGlobals hp₁, hsize, length_enroll]
      rw [Tree.namesAfterAll, Tree.namesAfter, hinit.namesAfter_eq]
      exact ih rfl hsize₂ hp₃
  | @block ns Γ _ _ _ _ body ts code₁ code₂ hbody hrest _ ih =>
      intro m m' hsize hp
      rw [List.cons_append, List.map_cons, List.map_append, List.map_cons] at hp
      obtain ⟨m₁, henter, hp⟩ := Machine.perform_cons_ok hp
      obtain ⟨m₂, hp₂, hp⟩ := Machine.perform_append_ok hp
      obtain ⟨m₃, hleave, hp₃⟩ := Machine.perform_cons_ok hp
      have hinner : m₃.globals = m.globals := by
        rw [Machine.step_globals (fun _ => Command.noConfusion) hleave,
          Machine.perform_globals (hbody.sparesGlobals (List.cons_ne_nil ns Γ)) hp₂,
          Machine.step_globals (fun _ => Command.noConfusion) henter]
      exact ih hΓ (hinner.symm ▸ hsize) hp₃

/-- A run of a compiled program that succeeds leaves a global slot for each name of the outermost
block. -/
theorem Program.size_globals {p : Program} {s : Settings} {c : Compilation}
    (h : p.compile s = .ok c) {m : Machine} {limit : Nat}
    (herror : (m.run limit c.words c.constants).error = none) :
    (m.run limit c.words c.constants).machine.globals.size =
      (Tree.namesAfterAll [] p.body).length := by
  have hpool : c.scopes.constants.size ≤ Machine.maxSlot + 1 := by
    by_contra hlim
    obtain ⟨pool, hrun⟩ := Compilation.run_of_lt (Nat.lt_of_not_le hlim) m limit
    rw [hrun] at herror
    cases herror
  have hp := run_perform h hpool m limit
  rw [herror] at hp
  exact (lowers_of_compile h).1.size_globals rfl rfl hp

end BlockScript
