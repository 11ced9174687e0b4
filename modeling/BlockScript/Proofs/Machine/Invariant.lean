import BlockScript.Proofs.Machine.Lines
import BlockScript.Proofs.Tree.Interpretation

/-!
# What every run keeps

The machine takes any words, also such that no program compiles to.  Whatever they are, it stays
within its limits and makes no text (`Machine.Sound`), and an error names a place where an
instruction begins.

The invariant holds of an empty machine, loading a constant keeps it, and so does every command,
with a fault or without (`Machine.Sound.step`).  A run goes from one instruction to the next
(`Machine.Reaches`) until it ends in one of four ways (`Machine.Ends`), so the invariant holds all
along.  The main statement is `Machine.run_sound`.
-/

namespace BlockScript

/-! ## Sound machines -/

/-- No more slots than there are slot numbers, and no text in any of them. -/
structure Slots.Sound (s : Slots) : Prop where
  /-- The size is that of a list whose last slot has a number. -/
  size_le : s.size ≤ Machine.maxSlot + 1
  /-- There is no text. -/
  plain : ∀ v ∈ s.cells, v.Plain

namespace Slots.Sound

theorem empty : Sound ∅ where
  size_le := Nat.zero_le _
  plain v hv := by
    have hv : v ∈ #[] := hv
    simp at hv

/-- What is read is no text, also behind the end. -/
theorem read {s : Slots} (h : s.Sound) (i : Nat) : (s.read i).Plain := by
  rw [Slots.read, Array.getD_eq_getD_getElem?]
  cases hv : s.cells[i]? with
  | none => exact Value.plain_hole
  | some v => exact h.plain v (Array.mem_of_getElem? hv)

/-- A slot with a number can take a value. -/
theorem store {s : Slots} (h : s.Sound) {i : Nat} (hi : i ≤ Machine.maxSlot) {v : Value}
    (hv : v.Plain) : (s.store i v).Sound where
  size_le := by
    have := h.size_le
    rw [Slots.size_store]
    omega
  plain w hw := by
    obtain ⟨j, hj⟩ := Array.getElem?_of_mem hw
    have hread : (s.store i v).read j = w := by
      rw [Slots.read, Array.getD_eq_getD_getElem?, hj]
      rfl
    rw [Slots.read_store] at hread
    rw [← hread]
    split
    · exact hv
    · exact h.read j

end Slots.Sound

namespace Machine

/-- The machine is within its limits, with room for `limit` operands, and has no text. -/
structure Sound (limit : Nat) (m : Machine) : Prop where
  /-- The stack is no larger than it may be. -/
  room : m.stack.size ≤ limit
  /-- There is no text on it. -/
  plain : ∀ v ∈ m.stack, v.Plain
  /-- The same holds of the global variables. -/
  globals : m.globals.Sound
  /-- The same holds of every frame. -/
  frames : ∀ f ∈ m.frames, f.Sound
  /-- The same holds of the pool. -/
  pool : m.pool.Sound

theorem le_of_slot? {w : Int} {i : Nat} (h : slot? w = some i) : i ≤ maxSlot := by
  rw [slot?] at h
  split at h
  next hw =>
    cases h
    exact hw.2
  next => cases h

namespace Sound

variable {limit : Nat} {m : Machine}

/-- A machine that was cleared is sound. -/
theorem clear (limit : Nat) (m : Machine) : m.clear.Sound limit where
  room := Nat.zero_le _
  plain v hv := by simp [Machine.clear] at hv
  globals := .empty
  frames f hf := by cases hf
  pool := .empty

theorem pushed (h : m.Sound limit) {v : Value} (hv : v.Plain) (hroom : m.stack.size < limit) :
    (m.pushed v).Sound limit where
  room := by
    rw [Machine.pushed, Array.size_push]
    exact hroom
  plain w hw := by
    obtain hw | rfl := Array.mem_push.1 hw
    · exact h.plain w hw
    · exact hv
  globals := h.globals
  frames := h.frames
  pool := h.pool

/-- Operands can go. -/
theorem withStack (h : m.Sound limit) {stack : Array Value}
    (hs : stack.toList <+: m.stack.toList) : (m.withStack stack).Sound limit where
  room := by
    have hle : stack.size ≤ m.stack.size := by simpa using hs.length_le
    exact Nat.le_trans hle h.room
  plain v hv := h.plain v (Array.mem_toList_iff.1 (hs.subset (Array.mem_toList_iff.2 hv)))
  globals := h.globals
  frames := h.frames
  pool := h.pool

theorem withFrames (h : m.Sound limit) {frames : List Slots} (hf : ∀ f ∈ frames, f.Sound) :
    Sound limit { m with frames := frames } where
  room := h.room
  plain := h.plain
  globals := h.globals
  frames := hf
  pool := h.pool

/-- The operand on top of the stack, and the machine without it. -/
theorem top (h : m.Sound limit) {stack : Array Value} {v : Value} (hs : m.stack = stack.push v) :
    v.Plain ∧ (m.withStack stack).Sound limit :=
  ⟨h.plain v (by simp [hs]), h.withStack (by simp [hs])⟩

theorem frame? (h : m.Sound limit) {depth : Int} {f : Slots} (hf : m.frame? depth = some f) :
    f.Sound := by
  rw [Machine.frame?] at hf
  split at hf
  next => exact h.frames f (List.mem_of_getElem? hf)
  next => cases hf

theorem constant? (h : m.Sound limit) {place : Int} {v : Value} (hv : m.constant? place = some v) :
    v.Plain := by
  rw [Machine.constant?] at hv
  split at hv
  next => exact h.pool.plain v (Array.mem_of_getElem? hv)
  next => cases hv

/-- Every command keeps a machine sound, also one that has a fault. -/
theorem step (h : m.Sound limit) (c : Command) : (m.step limit c).1.Sound limit := by
  have heffect := step_effect limit m c
  generalize m.step limit c = r at heffect
  cases heffect with
  | loadInteger hroom => exact h.pushed (Value.plain_number _) hroom
  | loadConstant hv hroom => exact h.pushed (h.constant? hv) hroom
  | loadOuterSlot _ hf hroom => exact h.pushed ((h.frame? hf).read _) hroom
  | loadSlot _ hf hroom => exact h.pushed ((h.frame? hf).read _) hroom
  | enter =>
      refine h.withFrames ?_
      intro f hf
      obtain rfl | hf := List.mem_cons.1 hf
      · exact .empty
      · exact h.frames f hf
  | leave hframes =>
      refine h.withFrames ?_
      intro f hf
      exact h.frames f (by simp [hframes, hf])
  | loadGlobal _ hroom => exact h.pushed (h.globals.read _) hroom
  | storeGlobal hslot hs =>
      obtain ⟨hv, hrest⟩ := h.top hs
      exact { hrest with globals := h.globals.store (le_of_slot? hslot) hv }
  | @storeSlot _ _ _ v f frames hslot hs hframes =>
      obtain ⟨hv, hrest⟩ := h.top hs
      have hf : f.Sound := h.frames f (by simp [hframes])
      refine hrest.withFrames ?_
      intro g hg
      obtain rfl | hg := List.mem_cons.1 hg
      · exact hf.store (le_of_slot? hslot) hv
      · exact h.frames g (by simp [hframes, hg])
  | arithmetic hs _ _ hroom =>
      exact ((h.top hs).2.top rfl).2.pushed (Value.plain_number _) hroom
  | fault hs _ => exact h.withStack hs

/-- On a sound machine the only value that is no number is a hole. -/
theorem eq_hole (h : m.Sound limit) {kind : String} (hb : m.Blames (.nonNumeric kind)) :
    kind = "hole" := by
  cases hb with
  | @nonNumeric v hv hnone =>
      cases v with
      | hole => rfl
      | string s => exact absurd rfl (h.plain _ hv s)
      | number n => cases hnone

/-- Loading constants keeps a machine sound, also up to one whose place is too large. -/
theorem load (constants : List Constant) :
    ∀ {m : Machine}, m.Sound limit → (m.load constants).1.Sound limit := by
  induction constants with
  | nil =>
      intro m h
      exact h
  | cons c cs ih =>
      intro m h
      rw [Machine.load]
      split
      next hplace => exact ih { h with pool := h.pool.store hplace (Value.plain_number _) }
      next => exact h

end Sound

/-! ## From one instruction to the next -/

/-- A run of `ws` from the machine `m` comes to the place `p` with another machine. -/
inductive Reaches (limit : Nat) (ws : List Int) (m : Machine) : Nat → Machine → Prop where
  | start : Reaches limit ws m 0 m
  | next {p : Nat} {w : Int} {op : Opcode} {c : Command} {rest : List Int} {m₁ m₂ : Machine} :
      Reaches limit ws m p m₁ → ws[p]? = some w → Opcode.ofWord? w = some op →
      Command.read? op (ws.drop (p + 1)) = some (c, rest) → m₁.step limit c = (m₂, none) →
      Reaches limit ws m (p + c.width) m₂

namespace Reaches

variable {limit : Nat} {ws : List Int} {m m' : Machine} {p : Nat}

/-- A run comes to boundaries only. -/
theorem boundary (h : Reaches limit ws m p m') : Boundary ws p := by
  induction h with
  | start => exact .start
  | @next p _ op c rest _ _ _ hw hop hread _ ih =>
      obtain ⟨-, hlen, hws⟩ := Command.read?_eq_some hread
      have hall := congrArg List.length hws
      rw [List.length_drop, List.length_append, hlen] at hall
      have hp := (List.getElem?_eq_some_iff.1 hw).1
      rw [Command.width_of_read? hread, ← Nat.add_assoc]
      exact .next ih hw hop (by omega)

/-- A machine that is sound at the start is so all along. -/
theorem sound (h : Reaches limit ws m p m') (hm : m.Sound limit) : m'.Sound limit := by
  induction h with
  | start => exact hm
  | @next _ _ _ c _ m₁ _ _ _ _ _ hstep ih =>
      have hsound := ih.step c
      rwa [hstep] at hsound

end Reaches

/-- How a run of `ws` from the machine `m` ends: behind the last word, or at a place where a word is
no operation code, where words are missing, or where a command has a fault. -/
inductive Ends (limit : Nat) (ws : List Int) (m : Machine) : Machine → Option RunError → Prop where
  | done {m' : Machine} : Reaches limit ws m ws.length m' → Ends limit ws m m' none
  | unknown {p : Nat} {w : Int} {m' : Machine} : Reaches limit ws m p m' → p < ws.length →
      Ends limit ws m m' (some ⟨.unknownOpcode w, p⟩)
  | truncated {p : Nat} {op : Opcode} {m' : Machine} : Reaches limit ws m p m' → p < ws.length →
      Ends limit ws m m' (some ⟨.truncated op, p⟩)
  | fault {p : Nat} {c : Command} {fault : Fault} {m₁ m' : Machine} :
      Reaches limit ws m p m₁ → p < ws.length → m₁.step limit c = (m', some fault) →
      Ends limit ws m m' (some ⟨fault, p⟩)

/-- The words from a place on are the word there and those from the next place on. -/
theorem getElem?_of_drop {ws rest : List Int} {p : Nat} {w : Int} (h : ws.drop p = w :: rest) :
    ws[p]? = some w ∧ ws.drop (p + 1) = rest := by
  constructor
  · rw [← List.head?_drop, h]
    rfl
  · rw [← List.drop_drop, h]
    rfl

/-- A run from a place that it has reached ends in one of these ways. -/
theorem runFrom_ends {limit : Nat} {ws : List Int} {m₀ : Machine} (m : Machine)
    (dispatched : Array Dispatch) (p : Nat) (rest : List Int) (hrest : ws.drop p = rest)
    (h : Reaches limit ws m₀ p m) :
    Ends limit ws m₀ (m.runFrom limit dispatched p rest).machine
      (m.runFrom limit dispatched p rest).error := by
  fun_induction runFrom m limit dispatched p rest with
  | case1 m dispatched p =>
      have hp : p = ws.length := Nat.le_antisymm h.boundary.le_length (List.drop_eq_nil_iff.1 hrest)
      exact .done (hp ▸ h)
  | case2 m dispatched p w rest hop =>
      exact .unknown h (List.getElem?_eq_some_iff.1 (getElem?_of_drop hrest).1).1
  | case3 m dispatched p w rest op hop hread =>
      exact .truncated h (List.getElem?_eq_some_iff.1 (getElem?_of_drop hrest).1).1
  | case4 m dispatched p w rest op hop c more hread dispatched' m' fault hstep =>
      exact .fault h (List.getElem?_eq_some_iff.1 (getElem?_of_drop hrest).1).1 hstep
  | case5 m dispatched p w rest op hop c more hread dispatched' m' hstep ih =>
      obtain ⟨hw, hnext⟩ := getElem?_of_drop hrest
      have hmore : ws.drop (p + c.width) = more := by
        rw [Command.width, ← Nat.add_assoc, ← List.drop_drop, hnext,
          (Command.read?_eq_some hread).2.2, List.drop_left]
      exact ih hmore (.next h hw hop (hnext ▸ hread) hstep)

/-! ## Runs -/

/-- The machines that a run on `m` goes through: while it loads constants, from one instruction to
the next, and at the end. -/
inductive Passes (m : Machine) (limit : Nat) (ws : List Int) (constants : List Constant) :
    Machine → Prop where
  | loading {loaded : List Constant} {m' : Machine} : loaded <+: constants →
      m.clear.load loaded = (m', none) → Passes m limit ws constants m'
  | running {m₀ m' : Machine} {p : Nat} : m.clear.load constants = (m₀, none) →
      Reaches limit ws m₀ p m' → Passes m limit ws constants m'
  | ended : Passes m limit ws constants (m.run limit ws constants).machine

/-- A run whose constants could be loaded ends as a run of its words. -/
theorem run_ends {m m₀ : Machine} {constants : List Constant}
    (h : m.clear.load constants = (m₀, none)) (limit : Nat) (ws : List Int) :
    Ends limit ws m₀ (m.run limit ws constants).machine (m.run limit ws constants).error := by
  rw [run, h]
  exact runFrom_ends m₀ #[] 0 ws List.drop_zero .start

/-- The end of a run from a sound machine: the machine is sound, the error is at a boundary, and
arithmetic fails at a hole only. -/
theorem Ends.sound {limit : Nat} {ws : List Int} {m m' : Machine} {error : Option RunError}
    (h : Ends limit ws m m' error) (hm : m.Sound limit) :
    m'.Sound limit ∧ (∀ e, error = some e → e.position < ws.length ∧ Boundary ws e.position) ∧
      ∀ kind p, error = some ⟨.nonNumeric kind, p⟩ → kind = "hole" := by
  cases h with
  | done hreach => exact ⟨hreach.sound hm, by simp, by simp⟩
  | unknown hreach hp => exact ⟨hreach.sound hm, by simp [hp, hreach.boundary], by simp⟩
  | truncated hreach hp => exact ⟨hreach.sound hm, by simp [hp, hreach.boundary], by simp⟩
  | @fault _ c _ m₁ _ hreach hp hstep =>
      have hm₁ := hreach.sound hm
      have hsound := hm₁.step c
      have heffect := step_effect limit m₁ c
      rw [hstep] at hsound heffect
      refine ⟨hsound, by simp [hp, hreach.boundary], ?_⟩
      intro kind p he
      cases he
      cases heffect with
      | fault _ hblames => exact hm₁.eq_hole hblames

/-- Constants fail to load only if a place is too large. -/
theorem load_fault {constants : List Constant} {m' : Machine} {fault : Fault} :
    ∀ {m : Machine}, m.load constants = (m', some fault) →
      ∃ place, fault = .constantOutOfRange place := by
  induction constants with
  | nil =>
      intro m h
      cases h
  | cons c cs ih =>
      intro m h
      rw [load] at h
      split at h
      next => exact ih h
      next =>
        cases h
        exact ⟨_, rfl⟩

/-- The end of any run: the machine is sound, and arithmetic fails at a hole only. -/
theorem run_end_sound (m : Machine) (limit : Nat) (ws : List Int) (constants : List Constant) :
    (m.run limit ws constants).machine.Sound limit ∧
      ∀ kind p, (m.run limit ws constants).error = some ⟨.nonNumeric kind, p⟩ → kind = "hole" := by
  have hsound := (Sound.clear limit m).load constants
  cases hload : m.clear.load constants with
  | mk m₀ fault =>
      rw [hload] at hsound
      cases fault with
      | none =>
          obtain ⟨hend, -, hkind⟩ := (run_ends hload limit ws).sound hsound
          exact ⟨hend, hkind⟩
      | some fault =>
          obtain ⟨place, rfl⟩ := load_fault hload
          rw [run, hload]
          exact ⟨hsound, by simp⟩

/-- Whatever a machine runs, and whatever it ran before, it stays within its limits and has no text,
all along the run and at its end.  So arithmetic fails at a hole only.  An error behind the loading
of the constants is at a place within the words where an instruction begins.  What a run comes to
does not depend on what the machine held before. -/
theorem run_sound (m : Machine) (limit : Nat) (ws : List Int) (constants : List Constant) :
    (∀ m', Passes m limit ws constants m' → m'.Sound limit) ∧
    (∀ kind p, (m.run limit ws constants).error = some ⟨.nonNumeric kind, p⟩ → kind = "hole") ∧
    ((∀ c ∈ constants, c.place ≤ 65535) → ∀ e, (m.run limit ws constants).error = some e →
      e.position < ws.length ∧ Boundary ws e.position) ∧
    ∀ m' : Machine, m'.run limit ws constants = m.run limit ws constants := by
  obtain ⟨hend, hkind⟩ := run_end_sound m limit ws constants
  have hclear : m.clear.Sound limit := .clear limit m
  refine ⟨?_, hkind, ?_, fun m' => rfl⟩
  · intro m' hpasses
    cases hpasses with
    | @loading loaded _ _ hload =>
        have hsound := hclear.load loaded
        rwa [hload] at hsound
    | running hload hreach =>
        have hsound := hclear.load constants
        rw [hload] at hsound
        exact hreach.sound hsound
    | ended => exact hend
  · intro hplaces e he
    have hsound := hclear.load constants
    obtain ⟨pool, hload⟩ := load_of_le (m := m.clear) hplaces
    rw [hload] at hsound
    exact ((run_ends hload limit ws).sound hsound).2.1 e he

end Machine

end BlockScript
