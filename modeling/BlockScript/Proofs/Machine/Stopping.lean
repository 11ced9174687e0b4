import BlockScript.Proofs.Machine.Lines

/-!
# Where a run stops

A run that fails has run all lines before the one at which it stops, and that line has changed
neither a global variable nor a frame; it has at most taken operands off the stack
(`Machine.Stops.keeps`).  So the run is the run of the lines before, and a fault
(`Machine.exists_stop`).

Reading words as lines looks at no word behind a line, so the words up to a line are read as the
lines before it (`Line.Reads.take`).  Hence the main statement, `Machine.run_take`: the words before
the place of the error run without one, and leave the same variables and frames.
-/

namespace BlockScript

/-! ## Words up to a line -/

/-- A command is read from its own words, whatever stands behind them. -/
theorem Command.read?_operands {op : Opcode} {ws rest : List Int} {c : Command}
    (h : read? op ws = some (c, rest)) (more : List Int) :
    read? op (c.operands ++ more) = some (c, more) := by
  obtain ⟨-, hlen, rfl⟩ := read?_eq_some h
  obtain ⟨c', -, -, hread⟩ := read?_of_length hlen
  rw [hread] at h
  cases h
  exact hread more

/-- The words up to a line are read as the lines before it. -/
theorem Line.Reads.take {l : Line} {rest : List Line} :
    ∀ {front : List Line} {p : Nat} {ws : List Int}, Reads p ws (front ++ l :: rest) →
      Reads p (ws.take (l.position - p)) front
  | [], p, ws, h => by
      rw [h.words_append.1, Nat.sub_self, List.take_zero]
      exact .nil
  | l₀ :: front, p, ws, h => by
      rw [List.cons_append] at h
      generalize hls : front ++ l :: rest = ls at h
      have hl : l ∈ ls := by simp [← hls]
      cases h with
      | @unknown _ w ws _ hop hreads =>
          have hle := (hreads.words_prefix l hl).1
          have hskip : l.position - p = l.position - (p + 1) + 1 := by omega
          rw [hskip, List.take_succ_cons]
          exact .unknown hop (take (hls ▸ hreads))
      | truncated _ _ => cases hl
      | @command _ w ws more op c _ hop hread hreads =>
          have hle := (hreads.words_prefix l hl).1
          have hwidth : c.width = c.operands.length + 1 := Nat.add_comm _ _
          have hskip : l.position - p =
              c.operands.length + (l.position - (p + c.width)) + 1 := by omega
          rw [hskip, List.take_succ_cons, (Command.read?_eq_some hread).2.2,
            List.take_length_add_append]
          exact .command hop (Command.read?_operands hread _) (take (hls ▸ hreads))

namespace Machine

/-! ## The line at which a run stops -/

/-- What stands on a line stops a run that comes to it with the machine `m`, and leaves another
machine. -/
inductive Stops (limit : Nat) (m : Machine) : Line.Content → Machine → Fault → Prop where
  | unknown {w : Int} : Stops limit m (.unknown w) m (.unknownOpcode w)
  | truncated {op : Opcode} : Stops limit m (.truncated op) m (.truncated op)
  | command {c : Command} {m' : Machine} {fault : Fault} : m.step limit c = (m', some fault) →
      Stops limit m (.command c) m' fault

/-- A line that stops a run takes operands off the stack and changes nothing else. -/
theorem Stops.keeps {limit : Nat} {m m' : Machine} {content : Line.Content} {fault : Fault}
    (h : Stops limit m content m' fault) :
    ∃ stack : Array Value, stack.toList <+: m.stack.toList ∧ m' = m.withStack stack := by
  cases h with
  | unknown => exact ⟨m.stack, List.prefix_rfl, rfl⟩
  | truncated => exact ⟨m.stack, List.prefix_rfl, rfl⟩
  | @command c _ _ hstep =>
      have heffect := step_effect limit m c
      rw [hstep] at heffect
      cases heffect with
      | fault hstack _ => exact ⟨_, hstack, rfl⟩

/-- A run over lines that fails has run the lines before the one at which it stops. -/
theorem exists_stop (limit : Nat) (ls : List Line) {e : RunError} :
    ∀ (m : Machine) (dispatched : Array Dispatch),
      (m.runLines limit dispatched ls).error = some e →
      ∃ front l rest, ls = front ++ l :: rest ∧ l.position = e.position ∧
        (m.runLines limit dispatched front).error = none ∧
        (m.runLines limit dispatched front).dispatched.toList <+:
          (m.runLines limit dispatched ls).dispatched.toList ∧
        Stops limit (m.runLines limit dispatched front).machine l.content
          (m.runLines limit dispatched ls).machine e.fault := by
  induction ls with
  | nil => nofun
  | cons l ls ih =>
      intro m dispatched he
      obtain ⟨p, content⟩ := l
      cases content with
      | unknown w =>
          cases he
          exact ⟨[], _, ls, rfl, rfl, rfl, List.prefix_rfl, .unknown⟩
      | truncated op =>
          cases he
          exact ⟨[], _, ls, rfl, rfl, rfl, List.prefix_rfl, .truncated⟩
      | command c =>
          cases hstep : m.step limit c with
          | mk m' fault =>
              cases fault with
              | some fault =>
                  rw [runLines_fault hstep] at he ⊢
                  cases he
                  refine ⟨[], _, ls, rfl, rfl, rfl, ?_, .command hstep⟩
                  simp [runLines]
              | none =>
                  rw [runLines_ok hstep] at he ⊢
                  obtain ⟨front, l, rest, rfl, hp, hok, hran, hstop⟩ :=
                    ih m' (dispatched.push ⟨p, c, m.stack.size⟩) he
                  refine ⟨⟨p, .command c⟩ :: front, l, rest, rfl, hp, ?_⟩
                  rw [runLines_ok hstep]
                  exact ⟨hok, hran, hstop⟩

/-! ## Runs -/

/-- A run that fails shows the effects of the instructions before the one that failed, and no other.
The words before the place of the error run without one.  That run dispatches the same commands up
to there, and it leaves the same global variables, the same frames and the same pool.  Of the
operands on its stack the failing instruction has taken the last ones or none. -/
theorem run_take (m : Machine) (limit : Nat) (ws : List Int) {constants : List Constant}
    (hc : ∀ c ∈ constants, c.place ≤ 65535) {e : RunError} {r r' : Run}
    (hr : m.run limit ws constants = r) (he : r.error = some e)
    (hr' : m.run limit (ws.take e.position) constants = r') :
    r'.error = none ∧ r'.machine.globals = r.machine.globals ∧
      r'.machine.frames = r.machine.frames ∧ r'.machine.pool = r.machine.pool ∧
      r.machine.stack.toList <+: r'.machine.stack.toList ∧
      r'.dispatched.toList <+: r.dispatched.toList := by
  obtain ⟨pool, hload⟩ := load_of_le (m := m.clear) hc
  rw [run_of_load hload] at hr
  subst hr
  obtain ⟨front, l, rest, hls, hp, hok, hran, hstop⟩ := exists_stop limit _ _ _ he
  have hreads := Line.reads_ofWords ws
  rw [hls] at hreads
  have hrun : m.run limit (ws.take e.position) constants =
      runLines { m.clear with pool := pool } limit #[] front := by
    rw [run, hload, ← hp]
    exact hreads.take.runFrom_eq limit _ #[]
  rw [← hr', hrun]
  obtain ⟨stack, hstack, hkeeps⟩ := hstop.keeps
  rw [hkeeps]
  exact ⟨hok, rfl, rfl, rfl, hstack, hran⟩

/-- The last store fails for want of a frame, when its operand is off the stack already.  The global
variable stored before stays. -/
theorem run_take_storeSlot :
    (∀ c ∈ [(⟨2, .integer 7⟩ : Constant)], c.place ≤ 65535) ∧
    (run {} 8 [14, 5, 36, 0, 14, 6, 38, 1] [⟨2, .integer 7⟩]).error = some ⟨.noFrame 0, 6⟩ ∧
    (run {} 8 [14, 5, 36, 0, 14, 6, 38, 1] [⟨2, .integer 7⟩]).machine.stack = #[] ∧
    (run {} 8 [14, 5, 36, 0, 14, 6] [⟨2, .integer 7⟩]).error = none ∧
    (run {} 8 [14, 5, 36, 0, 14, 6] [⟨2, .integer 7⟩]).machine.globals =
      (run {} 8 [14, 5, 36, 0, 14, 6, 38, 1] [⟨2, .integer 7⟩]).machine.globals := by
  have hplaces : ∀ c ∈ [(⟨2, .integer 7⟩ : Constant)], c.place ≤ 65535 := by decide
  have herror : (run {} 8 [14, 5, 36, 0, 14, 6, 38, 1] [⟨2, .integer 7⟩]).error =
      some ⟨.noFrame 0, 6⟩ := by cbv
  have hstack : (run {} 8 [14, 5, 36, 0, 14, 6, 38, 1] [⟨2, .integer 7⟩]).machine.stack = #[] := by
    cbv
  obtain ⟨hok, hglobals, -⟩ := run_take {} 8 [14, 5, 36, 0, 14, 6, 38, 1] hplaces rfl herror rfl
  exact ⟨hplaces, herror, hstack, hok, hglobals⟩

end Machine

end BlockScript
