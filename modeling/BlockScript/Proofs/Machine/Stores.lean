import BlockScript.Proofs.Machine.Effect
import Mathlib.Data.List.Basic
import Mathlib.Data.List.Induction
import Mathlib.Order.Nat

/-!
# Stores

Only stores change a list of slots.  So it is a map that is a hole everywhere at first, and the last
store to a slot decides what it holds (`Slots.Holds`).

Which stores there were can be seen from the commands that were completed, each with the machine
that ran it (`Completion`): a store takes its value off the stack of that machine.  There is one
list of global slots, but frames come and go.  A frame is known by the command that entered it
(`openFrames`), and the stores into it are those that were completed while it was the innermost one
(`frameStores`).  They all came after it was entered (`exists_of_mem_frameStores`).
-/

namespace BlockScript

/-! ## Stores -/

/-- A store of a value into a slot. -/
structure Store where
  /-- The slot. -/
  slot : Nat
  /-- The value. -/
  value : Value
deriving DecidableEq

/-- The store of a constant into the pool. -/
def Constant.store (c : Constant) : Store := ⟨c.place, .number c.value⟩

namespace Slots

/-- What the last of some stores put into a slot; a hole if none was to that slot. -/
def lastStored (stores : List Store) (i : Nat) : Value :=
  ((stores.filter fun w => w.slot = i).getLast?.map Store.value).getD .hole

/-- The number of slots that some stores need: one more than the greatest slot, and none for no
stores. -/
def extent (stores : List Store) : Nat :=
  match (stores.map Store.slot).max? with
  | none => 0
  | some i => i + 1

theorem lastStored_concat (stores : List Store) (i j : Nat) (v : Value) :
    lastStored (stores ++ [⟨i, v⟩]) j = if i = j then v else lastStored stores j := by
  rw [lastStored, List.filter_append, List.getLast?_append]
  by_cases h : i = j
  · simp [h]
  · simp [h, lastStored]

theorem extent_le_iff {stores : List Store} {n : Nat} :
    extent stores ≤ n ↔ ∀ w ∈ stores, w.slot < n := by
  rw [extent]
  cases hmax : (stores.map Store.slot).max? with
  | none =>
      have hnil : stores = [] := by simpa using hmax
      simp [hnil]
  | some i =>
      obtain ⟨hmem, hle⟩ := List.max?_eq_some_iff.1 hmax
      obtain ⟨w, hw, rfl⟩ := List.mem_map.1 hmem
      constructor
      · intro h w' hw'
        exact Nat.lt_of_le_of_lt (hle _ (List.mem_map_of_mem hw')) h
      · intro h
        exact h w hw

theorem extent_concat (stores : List Store) (w : Store) :
    extent (stores ++ [w]) = max (extent stores) (w.slot + 1) := by
  refine eq_of_forall_ge_iff fun n => ?_
  rw [extent_le_iff, List.forall_mem_append, List.forall_mem_singleton, Nat.max_le, extent_le_iff,
    Nat.add_one_le_iff]

/-- The slots hold what some stores have put there, in this order, into a list that was empty: every
slot what the last store put into it, and no more slots are kept than it takes. -/
structure Holds (s : Slots) (stores : List Store) : Prop where
  /-- The list ends with the greatest slot of a store. -/
  size_eq : s.size = extent stores
  /-- The last store to a slot is what it holds. -/
  read_eq : ∀ i, s.read i = lastStored stores i

namespace Holds

variable {s : Slots} {stores : List Store}

theorem empty : Holds ∅ [] where
  size_eq := rfl
  read_eq _ := rfl

/-- One store more. -/
theorem store (h : s.Holds stores) (i : Nat) (v : Value) :
    (s.store i v).Holds (stores ++ [⟨i, v⟩]) where
  size_eq := by rw [size_store, extent_concat, h.size_eq]
  read_eq j := by rw [read_store, lastStored_concat, h.read_eq]

end Holds

end Slots

/-! ## Commands that were completed -/

/-- A command that a run completed. -/
structure Completion where
  /-- The place of its line. -/
  position : Nat
  /-- The command. -/
  command : Command
  /-- The machine that ran it. -/
  before : Machine

namespace Completion

/-- The command as it was dispatched. -/
def dispatch (d : Completion) : Dispatch := ⟨d.position, d.command, d.before.stack.size⟩

/-- The store of the operand that the command pops, into the slot that a word names. -/
def store? (d : Completion) (w : Int) : Option Store :=
  d.before.pop.1.map fun v => ⟨w.toNat, v⟩

/-- The store into a global slot, if the command is one. -/
def globalStore? (d : Completion) : Option Store :=
  match d.command with
  | .storeGlobal w => d.store? w
  | _ => none

/-- The store into the innermost frame, if the command is one. -/
def frameStore? (d : Completion) : Option Store :=
  match d.command with
  | .storeSlot w => d.store? w
  | _ => none

end Completion

/-- The stores into global slots, in order. -/
def globalStores (past : List Completion) : List Store := past.filterMap Completion.globalStore?

/-- How the `n`-th command changes the list of open frames. -/
def Command.reframe (n : Nat) (frames : List Nat) : Command → List Nat
  | enter => n :: frames
  | leave => frames.drop 1
  | _ => frames

/-- The frames that are open behind some commands, the innermost first.  A frame is known by the
number of the command that entered it; the first command has the number 0. -/
def openFrames (past : List Completion) : List Nat :=
  past.zipIdx.foldl (fun frames (d, n) => d.command.reframe n frames) []

/-- The stores into a frame, in order: those that were completed while it was the innermost one. -/
def frameStores (past : List Completion) (n : Nat) : List Store :=
  past.zipIdx.filterMap fun (d, k) =>
    if (openFrames (past.take k)).head? = some n then d.frameStore? else none

theorem globalStores_concat (past : List Completion) (d : Completion) :
    globalStores (past ++ [d]) = globalStores past ++ d.globalStore?.toList := by
  rw [globalStores, List.filterMap_append, globalStores]
  cases hd : d.globalStore? with
  | none => simp [hd]
  | some w => simp [hd]

theorem openFrames_concat (past : List Completion) (d : Completion) :
    openFrames (past ++ [d]) = d.command.reframe past.length (openFrames past) := by
  simp [openFrames, List.zipIdx_append]

theorem frameStores_concat (past : List Completion) (d : Completion) (n : Nat) :
    frameStores (past ++ [d]) n = frameStores past n ++
      (if (openFrames past).head? = some n then d.frameStore?.toList else []) := by
  -- which frame was the innermost one before an earlier command does not depend on `d`
  have hpast : ∀ e ∈ past.zipIdx, (past ++ [d]).take e.2 = past.take e.2 := by
    intro e he
    have hlt := (List.mem_zipIdx he).2.1
    exact List.take_append_of_le_length (by omega)
  rw [frameStores, List.zipIdx_append, List.filterMap_append, frameStores]
  congr 1
  · refine List.filterMap_congr fun e he => ?_
    simp only [hpast e he]
  · split
    next h => cases hd : d.frameStore? <;> simp [h, hd]
    next h => simp [h]

/-- A command opens a frame of its own, or the frames behind it were open before. -/
theorem Command.reframe_cases (n : Nat) (frames : List Nat) (c : Command) :
    c = enter ∧ c.reframe n frames = n :: frames ∨ c.reframe n frames <:+ frames := by
  cases c with
  | enter => exact Or.inl ⟨rfl, rfl⟩
  | leave => exact Or.inr (List.drop_suffix 1 frames)
  | _ => exact Or.inr List.suffix_rfl

/-- Every open frame was entered by the command that it is known by. -/
theorem exists_enter {past : List Completion} {n : Nat} (h : n ∈ openFrames past) :
    ∃ d, past[n]? = some d ∧ d.command = .enter := by
  induction past using List.reverseRecOn with
  | nil => cases h
  | append_singleton past d ih =>
      have hbefore (hn : n ∈ openFrames past) :
          ∃ e, (past ++ [d])[n]? = some e ∧ e.command = .enter := by
        obtain ⟨e, he, hcommand⟩ := ih hn
        refine ⟨e, ?_, hcommand⟩
        rw [List.getElem?_append_left (List.getElem?_eq_some_iff.1 he).1, he]
      rw [openFrames_concat] at h
      obtain ⟨henter, hopen⟩ | hsuffix := d.command.reframe_cases past.length (openFrames past)
      · rw [hopen] at h
        obtain rfl | h := List.mem_cons.1 h
        · exact ⟨d, List.getElem?_concat_length, henter⟩
        · exact hbefore h
      · exact hbefore (hsuffix.subset h)

theorem lt_of_mem_openFrames {past : List Completion} {n : Nat} (h : n ∈ openFrames past) :
    n < past.length := by
  obtain ⟨d, hd, -⟩ := exists_enter h
  exact (List.getElem?_eq_some_iff.1 hd).1

/-- A frame further out was entered earlier, so no two open frames are known by the same number. -/
theorem pairwise_openFrames (past : List Completion) :
    (openFrames past).Pairwise fun n n' => n' < n := by
  induction past using List.reverseRecOn with
  | nil => exact .nil
  | append_singleton past d ih =>
      rw [openFrames_concat]
      obtain ⟨-, hopen⟩ | hsuffix := d.command.reframe_cases past.length (openFrames past)
      · rw [hopen]
        exact .cons (fun n hn => lt_of_mem_openFrames hn) ih
      · exact ih.sublist hsuffix.sublist

/-- A store into a frame was completed after the frame had been entered, while it was the innermost
one. -/
theorem exists_of_mem_frameStores {past : List Completion} {n : Nat} {w : Store}
    (h : w ∈ frameStores past n) :
    ∃ k d, n < k ∧ past[k]? = some d ∧ (openFrames (past.take k)).head? = some n ∧
      d.frameStore? = some w := by
  obtain ⟨⟨d, k⟩, hd, hw⟩ := List.mem_filterMap.1 h
  dsimp only at hw
  split at hw
  next hhead =>
    have hlt := lt_of_mem_openFrames (List.mem_of_head? hhead)
    exact ⟨k, d, Nat.lt_of_lt_of_le hlt (List.length_take_le k past),
      List.mk_mem_zipIdx_iff_getElem?.1 hd, hhead, hw⟩
  next => cases hw

/-- Nothing was stored into a frame that is yet to be entered. -/
theorem frameStores_eq_nil {past : List Completion} {n : Nat} (h : past.length ≤ n) :
    frameStores past n = [] := by
  refine List.eq_nil_iff_forall_not_mem.2 fun w hw => ?_
  obtain ⟨k, d, hlt, hd, -⟩ := exists_of_mem_frameStores hw
  have hk := (List.getElem?_eq_some_iff.1 hd).1
  omega

/-! ## Commands that store -/

theorem Machine.eq_of_slot? {w : Int} {i : Nat} (h : slot? w = some i) : w = i := by
  rw [slot?] at h
  split at h
  next hw =>
    cases h
    exact (Int.toNat_of_nonneg hw.1).symm
  next => cases h

/-- A slot number and an operand on the stack make a store. -/
theorem Completion.store?_eq {d : Completion} {w : Int} {i : Nat} {stack : Array Value} {v : Value}
    (hslot : Machine.slot? w = some i) (hstack : d.before.stack = stack.push v) :
    d.store? w = some ⟨i, v⟩ := by
  obtain rfl := Machine.eq_of_slot? hslot
  simp [store?, Machine.pop, hstack]

/-- A store without a fault has found its operand, and the word it has is the slot. -/
theorem Completion.exists_store {d : Completion} {limit : Nat} {m' : Machine} {w : Int}
    (hok : d.before.step limit d.command = (m', none))
    (hd : d.command = .storeGlobal w ∨ d.command = .storeSlot w) :
    ∃ s, d.store? w = some s ∧ (s.slot : Int) = w := by
  have heffect := d.before.step_effect limit d.command
  rw [hok] at heffect
  obtain hd | hd := hd
  · rw [hd] at heffect
    cases heffect with
    | storeGlobal hslot hstack =>
        exact ⟨_, store?_eq hslot hstack, (Machine.eq_of_slot? hslot).symm⟩
  · rw [hd] at heffect
    cases heffect with
    | storeSlot hslot hstack _ =>
        exact ⟨_, store?_eq hslot hstack, (Machine.eq_of_slot? hslot).symm⟩

end BlockScript
