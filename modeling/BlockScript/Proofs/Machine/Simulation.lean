import BlockScript.Proofs.Machine.Perform
import BlockScript.Proofs.Tree.Demand
import BlockScript.Proofs.Tree.Interpretation

/-!
# The machine follows the interpreter

The slots of the machine hold the maps of the interpreter: the global slots hold the map of the
outermost block, and each frame holds the map of a block inside it, value by value at the place of
its name (`Represents`).  Code for an expression pushes the value that the interpreter finds, and
code for statements takes the slots to the maps that the interpreter ends with.

Neither statement supposes that the machine has room.  Where it has not, the code stops with a fault
that names the limit, and the tree shows a demand beyond it.  So there is one lemma for expressions
(`LowersExpression.outcome`) and one for statements (`Lowers.outcome`), which list all that can
happen.
-/

namespace BlockScript

/-! ## Slots and maps -/

/-- The slots have the values of a map at the places of its names, and holes behind them. -/
def Bindings.StoredIn (b : Bindings) (s : Slots) : Prop :=
  ∀ i, s.read i = ((b[i]?).map Prod.snd).getD .hole

namespace Bindings.StoredIn

theorem nil : StoredIn [] ∅ := by
  intro i
  rfl

/-- A new name needs no change of the slots. -/
theorem declare {b : Bindings} {s : Slots} (h : b.StoredIn s) (name : String) :
    (b.declare name).StoredIn s := by
  rw [Bindings.declare]
  by_cases hn : name ∈ b.names
  · rw [if_pos hn]
    exact h
  · rw [if_neg hn]
    intro i
    rw [h i, getElem?_write, List.idxOf_eq_length hn, length_names]
    by_cases hi : i = b.length
    · rw [if_pos hi, List.getElem?_eq_none (Nat.le_of_eq hi.symm)]
      rfl
    · rw [if_neg hi]

/-- A write to a name is a store at its place. -/
theorem write {b : Bindings} {s : Slots} (h : b.StoredIn s) (name : String) (v : Value) :
    (b.write name v).StoredIn (s.store (b.names.idxOf name) v) := by
  intro i
  rw [Slots.read_store, getElem?_write]
  by_cases hi : i = b.names.idxOf name
  · rw [if_pos hi, if_pos hi.symm]
    rfl
  · rw [if_neg hi, if_neg (Ne.symm hi)]
    exact h i

end Bindings.StoredIn

/-- The global slots and the frames hold the maps of the open blocks. -/
inductive Represents (globals : Slots) : List Slots → List Bindings → Prop where
  | root {b : Bindings} : b.StoredIn globals → Represents globals [] [b]
  | block {f : Slots} {frames : List Slots} {b : Bindings} {env : List Bindings} :
      b.StoredIn f → Represents globals frames env → Represents globals (f :: frames) (b :: env)

/-- A new name in the innermost map needs no change of the slots. -/
theorem Represents.declare {globals : Slots} {frames : List Slots} {b : Bindings}
    {outer : List Bindings} (h : Represents globals frames (b :: outer)) (name : String) :
    Represents globals frames (b.declare name :: outer) := by
  cases h with
  | root hb => exact .root (hb.declare name)
  | block hb hr => exact .block (hb.declare name) hr

theorem Represents.ne_nil {globals : Slots} {frames : List Slots} {env : List Bindings}
    (h : Represents globals frames env) : env ≠ [] := by
  cases h with
  | root _ => simp
  | block _ _ => simp

/-- The slots at the end of a way. -/
def Reach.slots (globals : Slots) (frames : List Slots) : Reach → Option Slots
  | global => some globals
  | frame depth => frames[depth]?

/-- The names of the open blocks. -/
def namesOf (env : List Bindings) : List (List String) := env.map Bindings.names

/-- Slots that hold a map have the value of each name at its place. -/
theorem Bindings.StoredIn.get? {b : Bindings} {s : Slots} (h : b.StoredIn s) {name : String}
    (hn : name ∈ b.names) : b.get? name = some (s.read (b.names.idxOf name)) := by
  rw [get?_eq, if_pos hn, h, List.getElem?_eq_getElem (idxOf_lt hn)]
  rfl

theorem valueOf?_cons_of_mem {b : Bindings} {env : List Bindings} {name : String} {v : Value}
    (h : b.get? name = some v) : valueOf? (b :: env) name = some v := by
  rw [valueOf?, List.findSome?_cons, h]

theorem valueOf?_cons_of_not_mem {b : Bindings} {name : String} (h : name ∉ b.names)
    (env : List Bindings) : valueOf? (b :: env) name = valueOf? env name := by
  rw [valueOf?, List.findSome?_cons, Bindings.get?_eq, if_neg h]
  rfl

/-- Where code finds a name, there is its value. -/
theorem Represents.locate {globals : Slots} {frames rest : List Slots} {env : List Bindings}
    (h : Represents globals rest env) {name : String} {slot : Nat} {reach : Reach} :
    ∀ {depth : Nat}, frames.drop depth = rest →
      BlockScript.locate depth name (namesOf env) = some (slot, reach) →
      ∃ s, reach.slots globals frames = some s ∧ valueOf? env name = some (s.read slot) ∧
        ∃ b ∈ env, slot < b.length := by
  induction h with
  | @root b hb =>
      intro depth _ hl
      rw [namesOf, List.map_cons, BlockScript.locate] at hl
      by_cases hn : name ∈ b.names
      · rw [if_pos hn] at hl
        cases hl
        exact ⟨globals, rfl, valueOf?_cons_of_mem (hb.get? hn), b, List.mem_singleton_self b,
          Bindings.idxOf_lt hn⟩
      · rw [if_neg hn] at hl
        cases hl
  | @block f fs b env hb hr ih =>
      intro depth hd hl
      rw [namesOf, List.map_cons, BlockScript.locate] at hl
      by_cases hn : name ∈ b.names
      · have hne : (env.map Bindings.names).isEmpty = false := by simpa using hr.ne_nil
        rw [if_pos hn, hne] at hl
        cases hl
        have hf : frames[depth]? = some f := by
          rw [← List.head?_drop, hd]
          rfl
        exact ⟨f, hf, valueOf?_cons_of_mem (hb.get? hn), b, List.mem_cons_self ..,
          Bindings.idxOf_lt hn⟩
      · rw [if_neg hn] at hl
        have hd' : frames.drop (depth + 1) = fs := by
          rw [← List.drop_drop, hd]
          rfl
        obtain ⟨s, hs, hv, b', hb', hlt⟩ := ih hd' hl
        rw [valueOf?_cons_of_not_mem hn env]
        exact ⟨s, hs, hv, b', List.mem_cons_of_mem b hb', hlt⟩

/-! ## Single instructions -/

namespace Machine

theorem slot?_natCast (n : Nat) : slot? n = if n ≤ maxSlot then some n else none := by
  simp [slot?]

/-- A load pushes what the slot holds, if there is such a slot. -/
theorem step_loadFrom (limit : Nat) {m : Machine} {reach : Reach} {s : Slots}
    (h : reach.slots m.globals m.frames = some s) (slot : Nat) :
    m.step limit (loadFrom slot reach).command =
      if slot ≤ maxSlot then m.push limit (s.read slot) else (m, some (.slotOutOfRange slot)) := by
  cases reach with
  | global =>
      cases h
      have hcommand : (loadFrom slot .global).command = .loadGlobal slot := rfl
      rw [hcommand, step, slot?_natCast]
      by_cases hs : slot ≤ maxSlot
      · rw [if_pos hs, if_pos hs]
      · rw [if_neg hs, if_neg hs]
  | frame depth =>
      have hcommand : m.step limit (loadFrom slot (.frame depth)).command =
          m.loadFrame limit slot depth := by
        cases depth with
        | zero => rfl
        | succ depth => rfl
      have hframe : m.frame? depth = some s := by
        rw [frame?, if_pos (Int.natCast_nonneg _), Int.toNat_natCast]
        exact h
      rw [hcommand, loadFrame, slot?_natCast]
      by_cases hs : slot ≤ maxSlot
      · rw [if_pos hs, if_pos hs, hframe]
      · rw [if_neg hs, if_neg hs]

/-- A store takes its value from the stack to the innermost block. -/
theorem step_storeInto (limit : Nat) {m : Machine} {b b' : Bindings} {outer : List Bindings}
    {slot : Nat} {v : Value} (h : Represents m.globals m.frames (b :: outer))
    (hb : ∀ s, b.StoredIn s → b'.StoredIn (s.store slot v)) (hslot : slot ≤ maxSlot) :
    ∃ globals frames,
      step limit { m with stack := m.stack.push v } (storeInto (namesOf outer) slot).command =
        ({ m with globals := globals, frames := frames }, none) ∧
      Represents globals frames (b' :: outer) := by
  have hs : slot? slot = some slot := by rw [slot?_natCast, if_pos hslot]
  obtain ⟨stack, globals, frames, pool⟩ := m
  cases h with
  | root hr =>
      refine ⟨globals.store slot v, [], ?_, .root (hb _ hr)⟩
      have hcommand : (storeInto (namesOf []) slot).command = .storeGlobal slot := rfl
      rw [hcommand, step, hs]
      simp [pop]
  | @block f fs _ _ hf hr =>
      refine ⟨globals, f.store slot v :: fs, ?_, .block (hb _ hf) hr⟩
      have hcommand : (storeInto (namesOf outer) slot).command = .storeSlot slot := by
        cases outer with
        | nil => exact absurd rfl hr.ne_nil
        | cons _ _ => rfl
      rw [hcommand, step, hs]
      simp [pop]

theorem step_storeInto_fault (limit : Nat) (m : Machine) (Γ : List (List String)) {slot : Nat}
    (h : maxSlot < slot) :
    m.step limit (storeInto Γ slot).command = (m, some (.slotOutOfRange slot)) := by
  have hs : slot? slot = none := by rw [slot?_natCast, if_neg (Nat.not_le.2 h)]
  have hcommand : (storeInto Γ slot).command = .storeGlobal slot ∨
      (storeInto Γ slot).command = .storeSlot slot := by
    cases Γ with
    | nil => exact Or.inl rfl
    | cons _ _ => exact Or.inr rfl
  obtain hc | hc := hcommand
  · rw [hc, step, hs]
  · rw [hc, step, hs]

/-- A load of a constant pushes it, if there is one at the place. -/
theorem step_loadConstant (limit : Nat) {m : Machine} {place : Nat} {v : Value}
    (h : m.pool.cells[place]? = some v) :
    m.step limit (Operation.loadConstant.on [.constant place]).command = m.push limit v := by
  have hcommand : (Operation.loadConstant.on [.constant place]).command = .loadConstant place := rfl
  rw [hcommand, step, constant?, if_pos (Int.natCast_nonneg _), Int.toNat_natCast, h]

theorem command_arithmetic (a : Arithmetic) : (a.operation.on []).command = .arithmetic a := by
  cases a with
  | add => rfl
  | sub => rfl
  | mul => rfl
  | div => rfl

/-- An operation takes its operands from the stack and widens the left one first. -/
theorem operate_push (limit : Nat) (m : Machine) (x y : Value) (a : Arithmetic) :
    operate limit { m with stack := (m.stack.push x).push y } a =
      match x.toDouble?, y.toDouble? with
      | none, _ => (m, some (.nonNumeric x.kindName))
      | some _, none => (m, some (.nonNumeric y.kindName))
      | some x, some y => m.push limit (.number (.float (a.apply x y))) := by
  obtain ⟨stack, globals, frames, pool⟩ := m
  cases hx : x.toDouble? with
  | none => simp [operate, pop, hx]
  | some u =>
      cases hy : y.toDouble? with
      | none => simp [operate, pop, hx, hy]
      | some w => simp [operate, pop, hx, hy]

end Machine

/-! ## Expressions -/

/-- What code for an expression can come to on a machine whose slots hold `env`: the value on top of
the stack, the failure that the interpreter has, or a limit that the expression demands to pass.
A fault leaves some operands on the stack, and everything else as it was. -/
inductive ExpressionOutcome (limit : Nat) (m : Machine) (env : List Bindings) (t : Tree) :
    Machine.Stepped → Prop where
  | value {v : Value} : t.evaluate env = .ok v → m.stack.size + t.need ≤ limit →
      ExpressionOutcome limit m env t ({ m with stack := m.stack.push v }, none)
  | nonNumeric {stack : Array Value} {kind : String} :
      t.evaluate env = .error (.nonNumeric kind) →
      ExpressionOutcome limit m env t ({ m with stack := stack }, some (.nonNumeric kind))
  | overflow {stack : Array Value} : limit < m.stack.size + t.need →
      ExpressionOutcome limit m env t ({ m with stack := stack }, some (.stackOverflow limit))
  | noSlot {stack : Array Value} {slot : Nat} {b : Bindings} : Machine.maxSlot < slot →
      b ∈ env → slot < b.length →
      ExpressionOutcome limit m env t ({ m with stack := stack }, some (.slotOutOfRange slot))

namespace ExpressionOutcome

variable {limit : Nat} {m : Machine} {env : List Bindings}

/-- A leaf pushes its value, if there is room for it. -/
theorem of_push {t : Tree} {v : Value} (hv : t.evaluate env = .ok v) (hn : t.need = 1) :
    ExpressionOutcome limit m env t (m.push limit v) := by
  by_cases h : m.stack.size < limit
  · rw [Machine.push_of_lt h]
    exact .value hv (by omega)
  · rw [Machine.push_of_le (Nat.le_of_not_lt h)]
    exact .overflow (by omega)

/-- The operation on two values that code has pushed. -/
theorem of_operate {site : Site} {a : Arithmetic} {left right : Tree} {x y : Value}
    (hx : left.evaluate env = .ok x) (hy : right.evaluate env = .ok y)
    (hl : m.stack.size + left.need ≤ limit) (hr : m.stack.size + 1 + right.need ≤ limit) :
    ExpressionOutcome limit m env (.operation site (.arithmetic a) left right)
      (Machine.operate limit { m with stack := (m.stack.push x).push y } a) := by
  have hev : (Tree.operation site (.arithmetic a) left right).evaluate env = (do
      let x ← x.widen
      let y ← y.widen
      return .number (.float (a.apply x y))) := by
    rw [Tree.evaluate, hx, hy]
    rfl
  have hneed : m.stack.size + (Tree.operation site (.arithmetic a) left right).need ≤ limit := by
    rw [Tree.need]
    omega
  rw [Machine.operate_push]
  simp only [Value.widen] at hev
  cases hx' : x.toDouble? with
  | none =>
      rw [hx'] at hev
      exact .nonNumeric hev
  | some u =>
      cases hy' : y.toDouble? with
      | none =>
          rw [hx', hy'] at hev
          exact .nonNumeric hev
      | some w =>
          rw [hx', hy'] at hev
          have hroom : m.stack.size < limit := by
            have := left.need_pos
            omega
          simp only [Machine.push_of_lt hroom]
          exact .value hev hneed

end ExpressionOutcome

/-- The pool of the machine has the constants `pool`. -/
def Machine.Holds (m : Machine) (pool : List Number) : Prop :=
  m.pool.cells = (pool.map Value.number).toArray

theorem Machine.Holds.of_pool_eq {m m' : Machine} {pool : List Number} (h : m.Holds pool)
    (hp : m'.pool = m.pool) : m'.Holds pool := by
  rw [Holds, hp]
  exact h

/-- The machine has every constant at the place where code expects it. -/
theorem Machine.Holds.place {m : Machine} {final pool : List Number} {share : Bool} {value : Number}
    (h : m.Holds final) (hp : Pool.add share pool value <+: final) :
    m.pool.cells[Pool.place share pool value]? = some (.number value) := by
  have hadd := getElem?_of_isPrefix hp (Pool.getElem?_add_place share pool value)
  rw [h, List.getElem?_toArray, List.getElem?_map, hadd]
  rfl

theorem Number.eq_of_inline? {value : Number} {n : Int} (h : value.inline? = some n) :
    value = .integer n := by
  cases value with
  | float _ => cases h
  | integer k =>
      rw [inline?] at h
      split at h
      next => cases h; rfl
      next => cases h

/-- What code for an expression comes to. -/
theorem LowersExpression.outcome {share : Bool} {Γ : List (List String)} {pool pool' : List Number}
    {t : Tree} {code : List Instruction} (h : LowersExpression share Γ pool t code pool')
    (limit : Nat) {env : List Bindings} {final : List Number} (hΓ : namesOf env = Γ) :
    ∀ {m : Machine}, Represents m.globals m.frames env → pool' <+: final → m.Holds final →
      ExpressionOutcome limit m env t (m.perform limit (code.map Instruction.command)) := by
  subst hΓ
  induction h with
  | @inline _ site value constant n hv =>
      intro m _ _ _
      have hval : (Tree.literal site value constant).evaluate env = .ok (.number (.integer n)) := by
        rw [Tree.evaluate, Number.eq_of_inline? hv]
      rw [List.map_singleton, Machine.perform_singleton]
      exact .of_push hval rfl
  | @constant pool site value constant hv =>
      intro m _ hp hm
      rw [List.map_singleton, Machine.perform_singleton, Machine.step_loadConstant _ (hm.place hp)]
      exact .of_push rfl rfl
  | @identifier pool site name binding slot reach hl =>
      intro m hr _ _
      obtain ⟨s, hs, hv, b, hb, hlt⟩ := hr.locate (List.drop_zero : m.frames.drop 0 = m.frames) hl
      have hval : (Tree.identifier site name binding).evaluate env = .ok (s.read slot) := by
        rw [Tree.evaluate, hv]
        rfl
      rw [List.map_singleton, Machine.perform_singleton, Machine.step_loadFrom _ hs]
      by_cases hslot : slot ≤ Machine.maxSlot
      · rw [if_pos hslot]
        exact .of_push hval rfl
      · rw [if_neg hslot]
        exact .noSlot (Nat.lt_of_not_le hslot) hb hlt
  | @operation pool pool₁ pool₂ site a left right code₁ code₂ _ hlow₂ ihl ihr =>
      intro m hr hp hm
      have hneed : (Tree.operation site (.arithmetic a) left right).need =
          max left.need (1 + right.need) := rfl
      have hl := ihl hr (hlow₂.prefix_pool.trans hp) hm
      rw [List.map_append, List.map_append, List.map_singleton, List.append_assoc]
      generalize hrun₁ : m.perform limit (code₁.map Instruction.command) = r₁ at hl
      cases hl with
      | nonNumeric hev =>
          rw [Machine.perform_append_fault hrun₁]
          refine .nonNumeric ?_
          rw [Tree.evaluate, hev]
          rfl
      | overflow hlim =>
          rw [Machine.perform_append_fault hrun₁]
          exact .overflow (by omega)
      | noSlot hslot hb hlt =>
          rw [Machine.perform_append_fault hrun₁]
          exact .noSlot hslot hb hlt
      | @value x hx hroom =>
          -- The right operand finds the left one on the stack, so it needs one place more.
          have hsize : (m.stack.push x).size = m.stack.size + 1 := Array.size_push _
          have hr' := ihr (m := { m with stack := m.stack.push x }) hr hp hm
          rw [Machine.perform_append hrun₁]
          generalize hrun₂ : Machine.perform limit { m with stack := m.stack.push x }
            (code₂.map Instruction.command) = r₂ at hr'
          cases hr' with
          | nonNumeric hev =>
              rw [Machine.perform_append_fault hrun₂]
              refine .nonNumeric ?_
              rw [Tree.evaluate, hx, hev]
              rfl
          | overflow hlim =>
              rw [Machine.perform_append_fault hrun₂]
              exact .overflow (by simp only [hsize] at hlim; omega)
          | noSlot hslot hb hlt =>
              rw [Machine.perform_append_fault hrun₂]
              exact .noSlot hslot hb hlt
          | @value y hy hroom' =>
              rw [Machine.perform_append hrun₂, Machine.perform_singleton,
                Machine.command_arithmetic]
              simp only [hsize] at hroom'
              exact .of_operate hx hy hroom hroom'

/-! ## Statements -/

/-- What code for statements can come to on a machine whose slots hold `b :: outer`: the maps that
the interpreter ends with, also where both fail, or a limit that the statements demand to pass. -/
inductive Outcome (limit : Nat) (m : Machine) (b : Bindings) (outer : List Bindings)
    (ts : List Tree) : Machine.Stepped → Prop where
  | done {globals : Slots} {frames : List Slots} {b' : Bindings} :
      Tree.interpretAll (b :: outer) ts = ⟨b' :: outer, none⟩ →
      Represents globals frames (b' :: outer) → Tree.Fit limit m.stack.size b.names ts →
      Outcome limit m b outer ts ({ m with globals := globals, frames := frames }, none)
  | nonNumeric {m' : Machine} {env : List Bindings} {kind : String} :
      Tree.interpretAll (b :: outer) ts = ⟨env, some (.nonNumeric kind)⟩ →
      Represents m'.globals m'.frames env →
      Outcome limit m b outer ts (m', some (.nonNumeric kind))
  | overflow {m' : Machine} {t : Tree} :
      t ∈ Tree.initializersAll ts → limit < m.stack.size + t.need →
      Outcome limit m b outer ts (m', some (.stackOverflow limit))
  | noSlot {m' : Machine} {slot : Nat} (ns : List String) :
      ns ∈ Tree.namesAfterAll b.names ts :: namesOf outer ++ Tree.blockNamesAll ts →
      Machine.maxSlot + 1 < ns.length →
      Outcome limit m b outer ts (m', some (.slotOutOfRange slot))

namespace Outcome

variable {limit : Nat} {m : Machine} {b : Bindings} {outer : List Bindings}

theorem nil (hr : Represents m.globals m.frames (b :: outer)) :
    Outcome limit m b outer [] (m, none) := .done rfl hr (.nil _ _ _)

/-- Code for a statement and code for those behind it make up code for all of them. -/
theorem cons {t : Tree} {ts : List Tree} {cs ds : List Command}
    (ht : Outcome limit m b outer [t] (m.perform limit cs))
    (hts : ∀ (m' : Machine) (b' : Bindings), m'.stack = m.stack → m'.pool = m.pool →
      b'.names = t.namesAfter b.names → Represents m'.globals m'.frames (b' :: outer) →
      Outcome limit m' b' outer ts (m'.perform limit ds)) :
    Outcome limit m b outer (t :: ts) (m.perform limit (cs ++ ds)) := by
  generalize hrun : m.perform limit cs = r at ht
  cases ht with
  | nonNumeric hint hr =>
      rw [Machine.perform_append_fault hrun]
      rw [Tree.interpretAll_singleton] at hint
      exact .nonNumeric (Tree.interpretAll_cons_fail hint ts) hr
  | overflow hmem hlim =>
      rw [Machine.perform_append_fault hrun]
      rw [Tree.initializersAll, Tree.initializersAll, List.append_nil] at hmem
      exact .overflow (by rw [Tree.initializersAll]; exact List.mem_append_left _ hmem) hlim
  | @noSlot _ _ ns hmem hlen =>
      rw [Machine.perform_append_fault hrun]
      simp only [Tree.blockNamesAll, List.append_nil, List.cons_append, List.mem_cons,
        List.mem_append] at hmem
      obtain rfl | hmem | hmem := hmem
      -- The block around is too full already, and the statements behind only add names.
      · have hpre := Tree.prefix_namesAfterAll ts (t.namesAfter b.names)
        exact .noSlot _ (List.mem_cons_self ..) (Nat.lt_of_lt_of_le hlen hpre.length_le)
      · exact .noSlot ns (by simp [hmem]) hlen
      · exact .noSlot ns (by simp [Tree.blockNamesAll, hmem]) hlen
  | @done globals frames b' hint hr hfit =>
      rw [Machine.perform_append hrun]
      have hnames : b'.names = t.namesAfter b.names := Tree.names_of_interpretAll hint
      rw [Tree.interpretAll_singleton] at hint
      have hall := Tree.interpretAll_cons_ok hint ts
      have hrest := hts { m with globals := globals, frames := frames } b' rfl rfl hnames hr
      generalize Machine.perform limit { m with globals := globals, frames := frames } ds = r
        at hrest
      cases hrest with
      | done hint' hr' hfit' =>
          rw [hnames] at hfit'
          exact .done (hall.trans hint') hr' (hfit.cons hfit')
      | nonNumeric hint' hr' => exact .nonNumeric (hall.trans hint') hr'
      | overflow hmem hlim =>
          exact .overflow (by rw [Tree.initializersAll]; exact List.mem_append_right _ hmem) hlim
      | @noSlot _ _ ns hmem hlen =>
          rw [hnames] at hmem
          refine .noSlot ns ?_ hlen
          simp only [Tree.blockNamesAll, Tree.namesAfterAll, List.cons_append, List.mem_cons,
            List.mem_append] at hmem ⊢
          obtain hmem | hmem | hmem := hmem
          · exact Or.inl hmem
          · exact Or.inr (Or.inl hmem)
          · exact Or.inr (Or.inr (Or.inr hmem))

/-- Code for a declaration: code for its initial value and a store. -/
theorem declaration {share : Bool} {pool pool' : List Number} {site : Site} {name : String}
    {slot : Option Nat} {init : Tree} {code : List Instruction}
    (hlow : LowersExpression share (enroll b.names name :: namesOf outer) pool init code pool')
    (hr : Represents m.globals m.frames (b.declare name :: outer))
    (hinit : ExpressionOutcome limit m (b.declare name :: outer) init
      (m.perform limit (code.map Instruction.command))) :
    Outcome limit m b outer [.declaration site name slot init]
      (m.perform limit ((code ++ [storeInto (namesOf outer) (b.names.idxOf name)]).map
        Instruction.command)) := by
  have hafter : Tree.namesAfterAll b.names [.declaration site name slot init] =
      enroll b.names name := by
    rw [Tree.namesAfterAll, Tree.namesAfter, hlow.namesAfter_eq]
    rfl
  have hinits : Tree.initializersAll [.declaration site name slot init] = [init] := by
    rw [Tree.initializersAll, Tree.initializers, hlow.initializers_eq]
    rfl
  have hblocks : Tree.blockNamesAll [.declaration site name slot init] = [] := by
    rw [Tree.blockNamesAll, Tree.blockNames, hlow.blockNames_eq]
    rfl
  have hint := Tree.interpretAll_singleton (b :: outer) (.declaration site name slot init)
  rw [Tree.interpret] at hint
  rw [List.map_append, List.map_singleton]
  generalize hrun : m.perform limit (code.map Instruction.command) = r at hinit
  cases hinit with
  | nonNumeric hev =>
      rw [Machine.perform_append_fault hrun]
      simp only [hev] at hint
      exact .nonNumeric hint hr
  | overflow hlim =>
      rw [Machine.perform_append_fault hrun]
      exact .overflow (by rw [hinits]; exact List.mem_singleton_self init) hlim
  | @noSlot _ _ b' hslot hb hlt =>
      rw [Machine.perform_append_fault hrun]
      refine .noSlot b'.names ?_ (by rw [Bindings.length_names]; omega)
      rw [hafter, ← Bindings.names_declare, hblocks, List.append_nil]
      exact List.mem_map_of_mem hb
  | @value v hev hroom =>
      rw [Machine.perform_append hrun, Machine.perform_singleton]
      simp only [hev] at hint
      by_cases hslot : b.names.idxOf name ≤ Machine.maxSlot
      · have hstore : ∀ s, (b.declare name).StoredIn s →
            ((b.declare name).write name v).StoredIn (s.store (b.names.idxOf name) v) := by
          intro s hs
          rw [← idxOf_enroll, ← Bindings.names_declare]
          exact hs.write name v
        obtain ⟨globals, frames, hstep, hr'⟩ := Machine.step_storeInto limit hr hstore hslot
        rw [hstep]
        refine .done hint hr' ⟨?_, ?_, ?_⟩
        · rw [hinits]
          intro t ht
          cases List.mem_singleton.1 ht
          exact hroom
        · rw [hblocks]
          intro ns hns
          cases hns
        · intro hlen
          rw [hafter]
          exact length_enroll_le hlen (by omega)
      · rw [Machine.step_storeInto_fault _ _ _ (Nat.lt_of_not_le hslot)]
        refine .noSlot _ (List.mem_cons_self ..) ?_
        rw [hafter]
        have := (List.getElem?_eq_some_iff.1 (getElem?_enroll_idxOf b.names name)).1
        omega

/-- Code for a block: code for its statements, in a frame of its own. -/
theorem block {site : Site} {body : List Tree} {code : List Instruction}
    (hbody : Outcome limit { m with frames := ∅ :: m.frames } [] (b :: outer) body
      (Machine.perform limit { m with frames := ∅ :: m.frames } (code.map Instruction.command))) :
    Outcome limit m b outer [.block site body]
      (m.perform limit ((Operation.enter.on [] :: code ++ [Operation.leave.on []]).map
        Instruction.command)) := by
  have henter : m.step limit (Operation.enter.on []).command =
      ({ m with frames := ∅ :: m.frames }, none) := rfl
  have hinits : Tree.initializersAll [.block site body] = Tree.initializersAll body := by
    rw [Tree.initializersAll, Tree.initializers]
    exact List.append_nil _
  have hblocks : Tree.blockNamesAll [.block site body] =
      Tree.namesAfterAll [] body :: Tree.blockNamesAll body := by
    rw [Tree.blockNamesAll, Tree.blockNames]
    exact List.append_nil _
  have hint := Tree.interpretAll_singleton (b :: outer) (.block site body)
  rw [Tree.interpret] at hint
  rw [List.map_append, List.map_cons, List.cons_append, Machine.perform_cons henter,
    List.map_singleton]
  generalize hrun : Machine.perform limit { m with frames := ∅ :: m.frames }
    (code.map Instruction.command) = r at hbody
  cases hbody with
  | nonNumeric hev hr =>
      rw [Machine.perform_append_fault hrun]
      simp only [hev] at hint
      exact .nonNumeric hint hr
  | overflow hmem hlim =>
      rw [Machine.perform_append_fault hrun]
      exact .overflow (by rw [hinits]; exact hmem) hlim
  | @noSlot _ _ ns hmem hlen =>
      rw [Machine.perform_append_fault hrun]
      refine .noSlot ns ?_ hlen
      rw [hblocks]
      simp only [namesOf, List.map_cons, List.cons_append, List.mem_cons, List.mem_append] at hmem ⊢
      obtain hmem | hmem | hmem | hmem := hmem
      · exact Or.inr (Or.inr (Or.inl hmem))
      · exact Or.inl hmem
      · exact Or.inr (Or.inl hmem)
      · exact Or.inr (Or.inr (Or.inr hmem))
  | @done globals frames b' hev hr hfit =>
      rw [Machine.perform_append hrun, Machine.perform_singleton]
      simp only [hev] at hint
      cases hr with
      | @block f fs _ _ _ hr =>
          refine .done hint hr ⟨?_, ?_, ?_⟩
          · rw [hinits]
            exact hfit.stack
          · rw [hblocks]
            intro ns hns
            obtain rfl | hns := List.mem_cons.1 hns
            · exact hfit.around (Nat.zero_le _)
            · exact hfit.blocks ns hns
          · exact fun h => h

end Outcome

/-- What code for statements comes to. -/
theorem Lowers.outcome {share : Bool} {ns : List String} {Γ : List (List String)}
    {pool pool' : List Number} {ts : List Tree} {code : List Instruction}
    (h : Lowers share ns Γ pool ts code pool') (limit : Nat) {final : List Number} :
    ∀ {m : Machine} {b : Bindings} {outer : List Bindings}, b.names = ns → namesOf outer = Γ →
      Represents m.globals m.frames (b :: outer) → pool' <+: final → m.Holds final →
      Outcome limit m b outer ts (m.perform limit (code.map Instruction.command)) := by
  induction h with
  | nil =>
      intro m b outer _ _ hr _ _
      exact .nil hr
  | @declaration ns Γ pool pool₁ pool₂ site name slot init ts code₁ code₂ hinit hts ih =>
      intro m b outer hns hΓ hr hp hm
      subst hns hΓ
      have hr' := hr.declare name
      have hnames : namesOf (b.declare name :: outer) = enroll b.names name :: namesOf outer := by
        rw [namesOf, List.map_cons, Bindings.names_declare]
        rfl
      have hout := hinit.outcome limit hnames hr' (hts.prefix_pool.trans hp) hm
      rw [List.append_cons, List.map_append]
      refine Outcome.cons (.declaration hinit hr' hout) ?_
      intro m' b' _ hpool hb' hr''
      rw [Tree.namesAfter, hinit.namesAfter_eq] at hb'
      exact ih hb' rfl hr'' hp (hm.of_pool_eq hpool)
  | @block ns Γ pool pool₁ pool₂ site body ts code₁ code₂ hbody hts ihb ih =>
      intro m b outer hns hΓ hr hp hm
      subst hns hΓ
      have hr' : Represents m.globals (∅ :: m.frames) ([] :: b :: outer) := .block .nil hr
      have hout := ihb (m := { m with frames := ∅ :: m.frames }) rfl rfl hr'
        (hts.prefix_pool.trans hp) hm
      rw [List.append_cons, List.map_append]
      refine Outcome.cons (.block hout) ?_
      intro m' b' _ hpool hb' hr''
      exact ih hb' rfl hr'' hp (hm.of_pool_eq hpool)

end BlockScript
