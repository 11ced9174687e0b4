import BlockScript.Proofs.Machine.Invariant
import BlockScript.Proofs.Machine.Stopping

/-!
# Room on the stack

The limit of the stack decides how far a run goes, and nothing else.  With less room a command does
the same as with more, or the stack overflows (`Machine.step_cut`).  So a run with less room is the
same run, or it is cut short at a line that the run with more room comes to as well
(`Machine.runLines_cut`).

The main statement is `Machine.run_room`, for all words and constants.
-/

namespace BlockScript

namespace Machine

/-! ## Commands -/

/-- The outcomes of a command with room for `limit` operands and with more: they are the same and no
overflow, or the smaller stack overflows. -/
inductive Cut (limit : Nat) : Stepped → Stepped → Prop where
  | same {r : Stepped} : (∀ n, r.2 ≠ some (.stackOverflow n)) → Cut limit r r
  | overflow {m : Machine} {r : Stepped} : Cut limit (m, some (.stackOverflow limit)) r

section

variable {limit limit' : Nat} (h : limit ≤ limit')

include h

theorem push_cut (m : Machine) (v : Value) : Cut limit (m.push limit v) (m.push limit' v) := by
  by_cases hroom : m.stack.size < limit
  · rw [push_of_lt hroom, push_of_lt (Nat.lt_of_lt_of_le hroom h)]
    exact .same (by simp)
  · rw [push_of_le (Nat.le_of_not_lt hroom)]
    exact .overflow

theorem loadFrame_cut (m : Machine) (slot depth : Int) :
    Cut limit (m.loadFrame limit slot depth) (m.loadFrame limit' slot depth) := by
  rw [loadFrame, loadFrame]
  cases slot? slot with
  | none => exact .same (by simp)
  | some i =>
      cases m.frame? depth with
      | none => exact .same (by simp)
      | some f => exact push_cut h m (f.read i)

/-- Arithmetic takes two operands before it needs room for one. -/
theorem operate_cut (m : Machine) (a : Arithmetic) :
    Cut limit (m.operate limit a) (m.operate limit' a) := by
  rw [operate, operate]
  obtain hy | ⟨stack₁, y, -, hy⟩ := m.pop_cases
  · rw [hy]
    exact .same (by simp)
  · rw [hy]
    obtain hx | ⟨stack, x, -, hx⟩ := (m.withStack stack₁).pop_cases
    · simp only [hx]
      exact .same (by simp)
    · simp only [hx]
      cases x.toDouble? with
      | none => exact .same (by simp)
      | some u =>
          cases y.toDouble? with
          | none => exact .same (by simp)
          | some w => exact push_cut h ((m.withStack stack₁).withStack stack) _

/-- A command does the same with less room, or the stack overflows. -/
theorem step_cut (m : Machine) (c : Command) : Cut limit (m.step limit c) (m.step limit' c) := by
  cases c with
  | loadInteger n => exact push_cut h m _
  | loadConstant place =>
      rw [step, step]
      cases m.constant? place with
      | none => exact .same (by simp)
      | some v => exact push_cut h m v
  | loadOuterSlot slot depth => exact loadFrame_cut h m slot depth
  | loadSlot slot => exact loadFrame_cut h m slot 0
  | loadGlobal slot =>
      rw [step, step]
      cases slot? slot with
      | none => exact .same (by simp)
      | some i => exact push_cut h m _
  | arithmetic a => exact operate_cut h m a
  | enter => exact .same (by simp [step])
  | leave =>
      refine .same ?_
      rw [step]
      split
      next => simp
      next => simp
  | storeGlobal slot =>
      refine .same ?_
      rw [step]
      cases slot? slot with
      | none => simp
      | some i =>
          obtain hpop | ⟨stack, v, -, hpop⟩ := m.pop_cases
          · simp [hpop]
          · simp [hpop]
  | storeSlot slot =>
      refine .same ?_
      rw [step]
      cases slot? slot with
      | none => simp
      | some i =>
          obtain hpop | ⟨stack, v, -, hpop⟩ := m.pop_cases
          · simp [hpop]
          · simp only [hpop]
            split
            next => simp
            next => simp
  | reserved op => exact .same (by simp [step])

end

/-! ## Runs over lines -/

/-- A run that comes to a command dispatches it, behind what was dispatched before. -/
theorem prefix_dispatched (limit p : Nat) (m : Machine) (dispatched : Array Dispatch) (c : Command)
    (ls : List Line) :
    (dispatched.push ⟨p, c, m.stack.size⟩).toList <+:
      (m.runLines limit dispatched (⟨p, .command c⟩ :: ls)).dispatched.toList := by
  cases hstep : m.step limit c with
  | mk m' fault =>
      cases fault with
      | none =>
          obtain ⟨ran, hran, -⟩ :=
            runLines_follows limit ls m' (dispatched.push ⟨p, c, m.stack.size⟩)
          rw [runLines_ok hstep]
          exact ⟨ran, hran.symm⟩
      | some fault =>
          refine ⟨[], ?_⟩
          rw [runLines_fault hstep, List.append_nil]

/-- A run with room for `limit` operands, beside a run with more: it is the same and does not
overflow, or it overflows at a place that the other comes to. -/
inductive CutShort (limit : Nat) : Run → Run → Prop where
  | same {r : Run} : (∀ n p, r.error ≠ some ⟨.stackOverflow n, p⟩) → CutShort limit r r
  | overflow {r r' : Run} {p : Nat} : r.error = some ⟨.stackOverflow limit, p⟩ →
      (∀ e, r'.error = some e → p ≤ e.position) →
      r.dispatched.toList <+: r'.dispatched.toList → CutShort limit r r'

/-- Less room cuts a run over lines short, and changes nothing else. -/
theorem runLines_cut {limit limit' : Nat} (h : limit ≤ limit') {ls : List Line}
    (hls : ls.Pairwise fun l l' => l.position < l'.position) :
    ∀ (m : Machine) (dispatched : Array Dispatch),
      CutShort limit (m.runLines limit dispatched ls) (m.runLines limit' dispatched ls) := by
  induction ls with
  | nil =>
      intro m dispatched
      exact .same (by simp [runLines])
  | cons l ls ih =>
      intro m dispatched
      obtain ⟨hfirst, htail⟩ := List.pairwise_cons.1 hls
      obtain ⟨p, content⟩ := l
      cases content with
      | unknown w => exact .same (by simp [runLines])
      | truncated op => exact .same (by simp [runLines])
      | command c =>
          have hcut := step_cut h m c
          generalize hr : m.step limit c = r at hcut
          generalize hr' : m.step limit' c = r' at hcut
          cases hcut with
          | same hno =>
              obtain ⟨m', fault⟩ := r
              cases fault with
              | none =>
                  rw [runLines_ok hr, runLines_ok hr']
                  exact ih htail m' _
              | some fault =>
                  rw [runLines_fault hr, runLines_fault hr']
                  refine .same ?_
                  rintro n q ⟨⟩
                  exact hno n rfl
          | overflow =>
              -- this line stops the run with less room; the other stops here, later or not at all
              rw [runLines_fault hr]
              refine .overflow rfl ?_ (prefix_dispatched ..)
              intro e he
              obtain ⟨front, l, rest, hsplit, hp, -⟩ := exists_stop limit' _ _ _ he
              have hl : l ∈ ⟨p, .command c⟩ :: ls := by simp [hsplit]
              obtain rfl | hl := List.mem_cons.1 hl
              · exact Nat.le_of_eq hp
              · exact hp ▸ Nat.le_of_lt (hfirst l hl)

/-! ## Runs -/

/-- Constants are not loaded if a place is too large. -/
theorem load_of_lt {constants : List Constant} (h : ∃ c ∈ constants, maxSlot < c.place) :
    ∀ m : Machine, ∃ m' place, m.load constants = (m', some (.constantOutOfRange place)) := by
  induction constants with
  | nil =>
      obtain ⟨c, hc, -⟩ := h
      cases hc
  | cons c cs ih =>
      intro m
      rw [load]
      split
      next hplace =>
        obtain ⟨d, hd, hlt⟩ := h
        obtain rfl | hd := List.mem_cons.1 hd
        · exact absurd hlt (Nat.not_lt.2 hplace)
        · exact ih ⟨d, hd, hlt⟩ _
      next => exact ⟨m, _, rfl⟩

/-- Less room cuts any run short, and changes nothing else. -/
theorem run_cut {limit limit' : Nat} (h : limit ≤ limit') (m : Machine) (ws : List Int)
    (constants : List Constant) :
    CutShort limit (m.run limit ws constants) (m.run limit' ws constants) := by
  cases hload : m.clear.load constants with
  | mk m₀ fault =>
      cases fault with
      | none =>
          rw [run_of_load hload, run_of_load hload]
          exact runLines_cut h (Line.reads_ofWords ws).positions_lt m₀ #[]
      | some fault =>
          obtain ⟨place, rfl⟩ := load_fault hload
          rw [run, run, hload]
          exact .same (by simp)

/-- The limit of the stack only cuts runs short.  A run that does not overflow is the same run with
more room: the same error or none, the same machine at the end, and the same commands dispatched.
Where the stack overflows with more room, it overflows with less, at the same place or before it.
In any case the run with less room dispatches the first commands of the other.  If a constant does
not fit into the pool, both runs fail alike before they begin. -/
theorem run_room (m : Machine) {limit limit' : Nat} (h : limit ≤ limit') (ws : List Int)
    (constants : List Constant) {r r' : Run} (hr : m.run limit ws constants = r)
    (hr' : m.run limit' ws constants = r') :
    ((∀ n p, r.error ≠ some ⟨.stackOverflow n, p⟩) → r' = r) ∧
    (∀ n p', r'.error = some ⟨.stackOverflow n, p'⟩ →
      ∃ p ≤ p', r.error = some ⟨.stackOverflow limit, p⟩) ∧
    r.dispatched.toList <+: r'.dispatched.toList ∧
    ((∃ c ∈ constants, 65535 < c.place) →
      r' = r ∧ ∃ place, r.error = some ⟨.constantOutOfRange place, 0⟩) := by
  have hcut := run_cut h m ws constants
  rw [hr, hr'] at hcut
  refine ⟨?_, ?_, ?_, ?_⟩
  · intro hno
    cases hcut with
    | same _ => rfl
    | overflow he _ _ => exact absurd he (hno _ _)
  · intro n p' he'
    cases hcut with
    | same hno => exact absurd he' (hno n p')
    | overflow he hle _ => exact ⟨_, hle _ he', he⟩
  · cases hcut with
    | same _ => exact List.prefix_rfl
    | overflow _ _ hran => exact hran
  · intro hc
    obtain ⟨m₀, place, hload⟩ := load_of_lt hc m.clear
    rw [run, hload] at hr hr'
    subst hr hr'
    exact ⟨rfl, place, rfl⟩

/-- Three operands overflow a stack for two at the third and a stack for one at the second.  A store
without a frame fails alike with room for two and for five. -/
theorem run_room_three :
    (run {} 2 [14, 5, 14, 6, 14, 7] []).error = some ⟨.stackOverflow 2, 4⟩ ∧
    (∃ p ≤ 4, (run {} 1 [14, 5, 14, 6, 14, 7] []).error = some ⟨.stackOverflow 1, p⟩) ∧
    (run {} 2 [14, 5, 14, 6, 38, 1] []).error = some ⟨.noFrame 0, 4⟩ ∧
    run {} 5 [14, 5, 14, 6, 38, 1] [] = run {} 2 [14, 5, 14, 6, 38, 1] [] := by
  have hover : (run {} 2 [14, 5, 14, 6, 14, 7] []).error = some ⟨.stackOverflow 2, 4⟩ := by cbv
  have hframe : (run {} 2 [14, 5, 14, 6, 38, 1] []).error = some ⟨.noFrame 0, 4⟩ := by cbv
  obtain ⟨-, hcut, -⟩ := run_room {} (Nat.le_succ 1) [14, 5, 14, 6, 14, 7] [] rfl rfl
  obtain ⟨hsame, -⟩ := run_room {} (show 2 ≤ 5 by decide) [14, 5, 14, 6, 38, 1] [] rfl rfl
  exact ⟨hover, hcut 2 4 hover, hframe, hsame (by simp [hframe])⟩

end Machine

end BlockScript
