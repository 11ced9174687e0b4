import BlockScript.Proofs.Machine.Simulation

/-!
# Runs of compiled programs

A run of a compiled program loads the pool and then performs the code.  If the pool is too long for
the machine, the run ends there (`Compilation.run_of_lt`).  Otherwise it comes to one of the
outcomes of the statements of the program (`Program.run_outcome`).
-/

namespace BlockScript

/-! ## Complete instructions -/

theorem loadFrom_isComplete (slot : Nat) (reach : Reach) : (loadFrom slot reach).isComplete := by
  cases reach with
  | global => rfl
  | frame depth =>
      cases depth with
      | zero => rfl
      | succ depth => rfl

theorem storeInto_isComplete (Γ : List (List String)) (slot : Nat) :
    (storeInto Γ slot).isComplete := by
  cases Γ with
  | nil => rfl
  | cons _ _ => rfl

theorem Arithmetic.isComplete (a : Arithmetic) : (a.operation.on []).isComplete := by
  cases a with
  | add => rfl
  | sub => rfl
  | mul => rfl
  | div => rfl

/-- Code for an expression has every operand that it needs. -/
theorem LowersExpression.isComplete {share : Bool} {Γ : List (List String)}
    {pool pool' : List Number} {t : Tree} {code : List Instruction}
    (h : LowersExpression share Γ pool t code pool') : ∀ i ∈ code, i.isComplete := by
  induction h with
  | inline _ =>
      intro i hi
      cases List.mem_singleton.1 hi
      rfl
  | constant _ =>
      intro i hi
      cases List.mem_singleton.1 hi
      rfl
  | identifier _ =>
      intro i hi
      cases List.mem_singleton.1 hi
      exact loadFrom_isComplete _ _
  | operation _ _ ihl ihr =>
      intro i hi
      rw [List.mem_append, List.mem_append, List.mem_singleton] at hi
      obtain (hi | hi) | rfl := hi
      · exact ihl i hi
      · exact ihr i hi
      · exact Arithmetic.isComplete _

/-- Code for statements has every operand that it needs. -/
theorem Lowers.isComplete {share : Bool} {ns : List String} {Γ : List (List String)}
    {pool pool' : List Number} {ts : List Tree} {code : List Instruction}
    (h : Lowers share ns Γ pool ts code pool') : ∀ i ∈ code, i.isComplete := by
  induction h with
  | nil => exact fun i hi => nomatch hi
  | declaration hinit _ ih =>
      intro i hi
      rw [List.mem_append, List.mem_cons] at hi
      obtain hi | rfl | hi := hi
      · exact hinit.isComplete i hi
      · exact storeInto_isComplete _ _
      · exact ih i hi
  | block _ _ ihb ih =>
      intro i hi
      rw [List.cons_append, List.mem_cons, List.mem_append, List.mem_cons] at hi
      obtain rfl | hi | rfl | hi := hi
      · rfl
      · exact ihb i hi
      · rfl
      · exact ih i hi

/-! ## Runs -/

/-- A machine with constants in its pool and nothing else. -/
def Machine.holding (pool : List Number) : Machine := { pool := ⟨(pool.map Value.number).toArray⟩ }

namespace Compilation

/-- A pool that is too long ends a run before it begins. -/
theorem run_of_lt {c : Compilation} (h : Machine.maxSlot + 1 < c.scopes.constants.size)
    (m : Machine) (limit : Nat) :
    ∃ pool, m.run limit c.words c.constants =
      ⟨{ pool := pool }, some ⟨.constantOutOfRange (Machine.maxSlot + 1 : Nat), 0⟩, #[]⟩ := by
  have hload := @Machine.load_zipIdx_fault c.scopes.pool m.clear (Nat.zero_le _)
  have hlen : Machine.maxSlot + 1 < m.clear.pool.cells.size + c.scopes.pool.length := by
    rw [← size_constants]
    exact Nat.lt_of_lt_of_le h (Nat.le_add_left _ _)
  obtain ⟨pool, hload⟩ := hload hlen
  have hload' : m.clear.load c.constants =
      ({ m.clear with pool := pool }, some (.constantOutOfRange (Machine.maxSlot + 1 : Nat))) :=
    hload
  rw [Machine.run, hload']
  exact ⟨pool, rfl⟩

/-- Otherwise the whole pool is loaded. -/
theorem load_of_le {c : Compilation} (h : c.scopes.constants.size ≤ Machine.maxSlot + 1)
    (m : Machine) : m.clear.load c.constants = (Machine.holding c.scopes.pool, none) := by
  have hlen : m.clear.pool.cells.size + c.scopes.pool.length ≤ Machine.maxSlot + 1 := by
    rw [← size_constants]
    exact Nat.le_trans (Nat.le_of_eq (Nat.zero_add _)) h
  refine (Machine.load_zipIdx hlen).trans ?_
  show (({ pool := ⟨#[] ++ (c.scopes.pool.map Value.number).toArray⟩ } : Machine), none) = _
  rw [Array.empty_append]
  rfl

/-- With the whole pool the run goes through the lines of the code. -/
theorem run_of_le {c : Compilation} (h : c.scopes.constants.size ≤ Machine.maxSlot + 1)
    (m : Machine) (limit : Nat) :
    m.run limit c.words c.constants =
      (Machine.holding c.scopes.pool).runLines limit #[] (Line.ofWords c.words).toList :=
  Machine.run_of_load (load_of_le h m) limit c.words

end Compilation

/-- If the machine can hold the pool, a run of a compiled program performs its code. -/
theorem Program.run_perform {p : Program} {s : Settings} {c : Compilation} (h : p.compile s = .ok c)
    (hpool : c.scopes.constants.size ≤ Machine.maxSlot + 1) (m : Machine) (limit : Nat) :
    Machine.perform limit (Machine.holding c.scopes.pool) (c.code.toList.map Instruction.command) =
      ((m.run limit c.words c.constants).machine,
        (m.run limit c.words c.constants).error.map RunError.fault) := by
  obtain ⟨hlow, -⟩ := lowers_of_compile h
  have hlines : (Line.ofWords c.words).toList = Line.ofInstructions 0 c.code.toList := by
    rw [Compilation.words, Line.ofWords_encode hlow.isComplete]
  rw [Compilation.run_of_le hpool, hlines, (Machine.runLines_ofInstructions limit _ #[] 0).1,
    (Machine.runLines_ofInstructions limit _ #[] 0).2]

/-- What a run of a compiled program comes to, if the machine can hold its pool. -/
theorem Program.run_outcome {p : Program} {s : Settings} {c : Compilation} (h : p.compile s = .ok c)
    (hpool : c.scopes.constants.size ≤ Machine.maxSlot + 1) (m : Machine) (limit : Nat) :
    Outcome limit (Machine.holding c.scopes.pool) [] [] p.body
      ((m.run limit c.words c.constants).machine,
        (m.run limit c.words c.constants).error.map RunError.fault) := by
  obtain ⟨hlow, -⟩ := lowers_of_compile h
  rw [← run_perform h hpool]
  exact hlow.outcome limit rfl rfl (.root .nil) List.prefix_rfl rfl

/-! ## Endings -/

/-- What a run of a compiled program can end with: the map that the interpreter ends with, the
failure that it has, or a limit of the machine that the program demands to pass. -/
inductive RunEnding (p : Program) (c : Compilation) (limit : Nat) (r : Run) : Prop where
  | done {b : Bindings} : r.error = none → p.interpret = ⟨[b], none⟩ →
      b.StoredIn r.machine.globals → r.machine.stack = #[] → r.machine.frames = [] →
      c.Fits p limit → RunEnding p c limit r
  | nonNumeric {kind : String} {position : Nat} {env : List Bindings} :
      r.error = some ⟨.nonNumeric kind, position⟩ →
      p.interpret = ⟨env, some (.nonNumeric kind)⟩ →
      Represents r.machine.globals r.machine.frames env →
      c.scopes.constants.size ≤ Machine.maxSlot + 1 → RunEnding p c limit r
  | overflow {position : Nat} {t : Tree} : r.error = some ⟨.stackOverflow limit, position⟩ →
      t ∈ p.initializers → limit < t.need →
      c.scopes.constants.size ≤ Machine.maxSlot + 1 → RunEnding p c limit r
  | noSlot {slot position : Nat} {x : Context} : r.error = some ⟨.slotOutOfRange slot, position⟩ →
      x ∈ c.scopes.contexts → Machine.maxSlot + 1 < x.slotCount →
      c.scopes.constants.size ≤ Machine.maxSlot + 1 → RunEnding p c limit r
  | noPlace : r.error = some ⟨.constantOutOfRange (Machine.maxSlot + 1 : Nat), 0⟩ →
      r.dispatched = #[] → Machine.maxSlot + 1 < c.scopes.constants.size → RunEnding p c limit r

/-- Every run of a compiled program ends in one of these ways. -/
theorem Program.run_ending {p : Program} {s : Settings} {c : Compilation}
    (h : p.compile s = .ok c) (m : Machine) (limit : Nat) :
    RunEnding p c limit (m.run limit c.words c.constants) := by
  -- The pool is loaded first, so it is the first limit that a run can meet.
  by_cases hpool : c.scopes.constants.size ≤ Machine.maxSlot + 1
  · have hout := run_outcome h hpool m limit
    generalize m.run limit c.words c.constants = r at hout ⊢
    obtain ⟨m', error, dispatched⟩ := r
    cases error with
    | none =>
        generalize hr : (m', Option.map RunError.fault none) = x at hout
        cases hout with
        | @done globals frames b hint hrep hfit =>
            cases hr
            cases hrep with
            | block _ hrest => exact absurd rfl hrest.ne_nil
            | root hb =>
                refine .done rfl hint hb rfl rfl ((Compilation.fits_iff h limit).2 ⟨hfit, ?_⟩)
                rw [← Compilation.size_constants]
                exact hpool
        | nonNumeric _ _ => cases hr
        | overflow _ _ => cases hr
        | noSlot _ _ _ => cases hr
    | some error =>
        obtain ⟨fault, position⟩ := error
        generalize hr : (m', Option.map RunError.fault (some ⟨fault, position⟩)) = x at hout
        cases hout with
        | done _ _ _ => cases hr
        | nonNumeric hint hrep =>
            cases hr
            exact .nonNumeric rfl hint hrep hpool
        | overflow hmem hlim =>
            cases hr
            exact .overflow rfl hmem (by rwa [← Nat.zero_add (Tree.need _)]) hpool
        | noSlot ns hmem hlen =>
            cases hr
            obtain ⟨x, hx, hbig⟩ := Compilation.exists_slotCount h hmem hlen
            exact .noSlot rfl hx hbig hpool
  · obtain ⟨pool, hrun⟩ := Compilation.run_of_lt (Nat.lt_of_not_le hpool) m limit
    rw [hrun]
    exact .noPlace rfl rfl (Nat.lt_of_not_le hpool)

end BlockScript
