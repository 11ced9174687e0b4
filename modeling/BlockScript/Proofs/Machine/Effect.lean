import BlockScript.Machine.Run

/-!
# What a command does

The machine has one function for a single command, with a branch for every way in which a command
can go.  `Machine.Effect` lists these ways as rules: one for each command that succeeds, with what
it found and what it changed, and one for all faults, which take operands off the stack and change
nothing else.  Every command goes one of these ways (`Machine.step_effect`), so what all commands
keep is shown by going through the rules.
-/

namespace BlockScript

namespace Machine

/-- The machine with one operand more. -/
def pushed (m : Machine) (v : Value) : Machine := { m with stack := m.stack.push v }

/-- The machine with other operands. -/
def withStack (m : Machine) (stack : Array Value) : Machine := { m with stack := stack }

/-- The faults that a command can have.  For a fault of arithmetic a value on the stack is to
blame. -/
inductive Blames (m : Machine) : Fault → Prop where
  | unimplemented {op : Opcode} : Blames m (.unimplemented op)
  | nonNumeric {v : Value} : v ∈ m.stack → v.toDouble? = none → Blames m (.nonNumeric v.kindName)
  | stackUnderflow : Blames m .stackUnderflow
  | noFrame {depth : Int} : Blames m (.noFrame depth)
  | constantOutOfRange {place : Int} : Blames m (.constantOutOfRange place)
  | slotOutOfRange {slot : Int} : Blames m (.slotOutOfRange slot)
  | stackOverflow {limit : Nat} : Blames m (.stackOverflow limit)

/-- What a command does, with room for `limit` operands. -/
inductive Effect (limit : Nat) (m : Machine) : Command → Stepped → Prop where
  | loadInteger {n : Int} : m.stack.size < limit →
      Effect limit m (.loadInteger n) (m.pushed (.number (.integer n)), none)
  | loadConstant {place : Int} {v : Value} : m.constant? place = some v → m.stack.size < limit →
      Effect limit m (.loadConstant place) (m.pushed v, none)
  | loadOuterSlot {slot depth : Int} {i : Nat} {f : Slots} : slot? slot = some i →
      m.frame? depth = some f → m.stack.size < limit →
      Effect limit m (.loadOuterSlot slot depth) (m.pushed (f.read i), none)
  | loadSlot {slot : Int} {i : Nat} {f : Slots} : slot? slot = some i →
      m.frame? 0 = some f → m.stack.size < limit →
      Effect limit m (.loadSlot slot) (m.pushed (f.read i), none)
  | enter : Effect limit m .enter ({ m with frames := ∅ :: m.frames }, none)
  | leave {f : Slots} {frames : List Slots} : m.frames = f :: frames →
      Effect limit m .leave ({ m with frames := frames }, none)
  | loadGlobal {slot : Int} {i : Nat} : slot? slot = some i → m.stack.size < limit →
      Effect limit m (.loadGlobal slot) (m.pushed (m.globals.read i), none)
  | storeGlobal {slot : Int} {i : Nat} {stack : Array Value} {v : Value} : slot? slot = some i →
      m.stack = stack.push v →
      Effect limit m (.storeGlobal slot)
        ({ m.withStack stack with globals := m.globals.store i v }, none)
  | storeSlot {slot : Int} {i : Nat} {stack : Array Value} {v : Value} {f : Slots}
      {frames : List Slots} : slot? slot = some i → m.stack = stack.push v →
      m.frames = f :: frames →
      Effect limit m (.storeSlot slot)
        ({ m.withStack stack with frames := f.store i v :: frames }, none)
  | arithmetic {a : Arithmetic} {stack : Array Value} {x y : Value} {u w : Double} :
      m.stack = (stack.push x).push y → x.toDouble? = some u → y.toDouble? = some w →
      stack.size < limit →
      Effect limit m (.arithmetic a)
        ((m.withStack stack).pushed (.number (.float (a.apply u w))), none)
  | fault {c : Command} {fault : Fault} {stack : Array Value} : stack.toList <+: m.stack.toList →
      m.Blames fault → Effect limit m c (m.withStack stack, some fault)

theorem push_of_lt {limit : Nat} {m : Machine} (h : m.stack.size < limit) (v : Value) :
    m.push limit v = ({ m with stack := m.stack.push v }, none) := if_pos h

theorem push_of_le {limit : Nat} {m : Machine} (h : limit ≤ m.stack.size) (v : Value) :
    m.push limit v = (m, some (.stackOverflow limit)) := if_neg (Nat.not_lt.2 h)

/-- A pop finds the stack empty, or takes the newest operand off it. -/
theorem pop_cases (m : Machine) :
    m.pop = (none, m) ∨
      ∃ stack v, m.stack = stack.push v ∧ m.pop = (some v, m.withStack stack) := by
  obtain ⟨stack, globals, frames, pool⟩ := m
  cases hv : stack.back? with
  | none =>
      obtain rfl := Array.back?_eq_none_iff.1 hv
      exact Or.inl rfl
  | some v =>
      obtain ⟨stack, rfl⟩ := Array.back?_eq_some_iff.1 hv
      exact Or.inr ⟨stack, v, rfl, by simp [pop, withStack]⟩

namespace Effect

variable {limit : Nat} {m : Machine} {c : Command}

/-- A fault before an operand was taken. -/
theorem of_fault {fault : Fault} (h : m.Blames fault) : Effect limit m c (m, some fault) :=
  .fault List.prefix_rfl h

/-- A push has room, or it is a fault. -/
theorem of_push {v : Value}
    (h : m.stack.size < limit → Effect limit m c (m.pushed v, none)) :
    Effect limit m c (m.push limit v) := by
  by_cases hroom : m.stack.size < limit
  · rw [push_of_lt hroom]
    exact h hroom
  · rw [push_of_le (Nat.le_of_not_lt hroom)]
    exact .of_fault .stackOverflow

/-- A load from a frame finds the slot and the frame, or it is a fault. -/
theorem of_loadFrame {slot depth : Int}
    (h : ∀ {i : Nat} {f : Slots}, slot? slot = some i → m.frame? depth = some f →
      m.stack.size < limit → Effect limit m c (m.pushed (f.read i), none)) :
    Effect limit m c (m.loadFrame limit slot depth) := by
  rw [loadFrame]
  cases hslot : slot? slot with
  | none => exact .of_fault .slotOutOfRange
  | some i =>
      cases hframe : m.frame? depth with
      | none => exact .of_fault .noFrame
      | some f => exact .of_push (h hslot hframe)

/-- Arithmetic takes two numbers off the stack, or it is a fault. -/
theorem of_operate (limit : Nat) (m : Machine) (a : Arithmetic) :
    Effect limit m (.arithmetic a) (m.operate limit a) := by
  rw [operate]
  obtain hy | ⟨stack₁, y, hstack₁, hy⟩ := m.pop_cases
  · rw [hy]
    exact .of_fault .stackUnderflow
  · rw [hy]
    obtain hx | ⟨stack, x, hstack, hx⟩ := (m.withStack stack₁).pop_cases
    · simp only [hx]
      exact .fault (by simp [hstack₁]) .stackUnderflow
    · have hboth : m.stack = (stack.push x).push y := by
        rw [hstack₁]
        exact congrArg (Array.push · y) hstack
      have hleft : stack.toList <+: m.stack.toList := by simp [hboth]
      simp only [hx]
      cases hu : x.toDouble? with
      | none => exact .fault hleft (.nonNumeric (by simp [hboth]) hu)
      | some u =>
          cases hw : y.toDouble? with
          | none => exact .fault hleft (.nonNumeric (by simp [hboth]) hw)
          | some w =>
              show Effect limit m (.arithmetic a) ((m.withStack stack).push limit _)
              by_cases hroom : stack.size < limit
              · rw [push_of_lt (m := m.withStack stack) hroom]
                exact .arithmetic hboth hu hw hroom
              · rw [push_of_le (m := m.withStack stack) (Nat.le_of_not_lt hroom)]
                exact .fault hleft .stackOverflow

end Effect

/-- Every command goes one of the ways that the rules list. -/
theorem step_effect (limit : Nat) (m : Machine) (c : Command) :
    Effect limit m c (m.step limit c) := by
  cases c with
  | loadInteger n => exact .of_push .loadInteger
  | loadConstant place =>
      rw [step]
      cases hv : m.constant? place with
      | none => exact .of_fault .constantOutOfRange
      | some v => exact .of_push (.loadConstant hv)
  | loadOuterSlot slot depth => exact .of_loadFrame .loadOuterSlot
  | loadSlot slot => exact .of_loadFrame .loadSlot
  | enter => exact .enter
  | leave =>
      rw [step]
      split
      next => exact .of_fault .noFrame
      next f frames hframes => exact .leave hframes
  | loadGlobal slot =>
      rw [step]
      cases hslot : slot? slot with
      | none => exact .of_fault .slotOutOfRange
      | some i => exact .of_push (.loadGlobal hslot)
  | storeGlobal slot =>
      rw [step]
      cases hslot : slot? slot with
      | none => exact .of_fault .slotOutOfRange
      | some i =>
          obtain hpop | ⟨stack, v, hstack, hpop⟩ := m.pop_cases
          · simp only [hpop]
            exact .of_fault .stackUnderflow
          · simp only [hpop]
            exact .storeGlobal hslot hstack
  | storeSlot slot =>
      rw [step]
      cases hslot : slot? slot with
      | none => exact .of_fault .slotOutOfRange
      | some i =>
          obtain hpop | ⟨stack, v, hstack, hpop⟩ := m.pop_cases
          · simp only [hpop]
            exact .of_fault .stackUnderflow
          · simp only [hpop]
            split
            next => exact .fault (by simp [hstack]) .noFrame
            next f frames hframes => exact .storeSlot hslot hstack hframes
  | arithmetic a => exact .of_operate limit m a
  | reserved op => exact .of_fault .unimplemented

end Machine

end BlockScript
