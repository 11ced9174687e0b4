import BlockScript.Code.Line
import Mathlib.Data.List.Basic

/-!
# Reading encoded code back

Instructions are flattened into words, and the machine and the listings read lines from words.  Of
instructions that have as many operands as their codes take, nothing is lost on the way: each
becomes one line, at the place where its words begin (`Line.ofWords_encode`).
-/

namespace BlockScript

namespace Opcode

theorem ofWord?_word (op : Opcode) : ofWord? op.word = some op := by
  have h : 0 ≤ op.word ∧ op.word.toNat < count := ⟨Int.natCast_nonneg _, op.number.isLt⟩
  rw [ofWord?, dif_pos h]
  rfl

/-- An operation belongs to its own code only. -/
theorem opcode_of_operation? {op : Opcode} {o : Operation} (h : op.operation? = some o) :
    o.opcode = op := by
  obtain ⟨⟨n, hn⟩⟩ := op
  simp only [operation?] at h
  split at h <;> cases h <;> rfl

end Opcode

namespace Command

/-- A code and as many words as it takes operands are read as one command, whatever follows. -/
theorem read?_of_length {op : Opcode} {ws : List Int} (h : ws.length = op.arity) :
    ∃ c : Command, c.opcode = op ∧ c.operands = ws ∧
      ∀ rest, read? op (ws ++ rest) = some (c, rest) := by
  cases hop : op.operation? with
  | none =>
      rw [Opcode.arity, hop] at h
      obtain rfl := List.eq_nil_of_length_eq_zero h
      exact ⟨reserved op, rfl, rfl, fun rest => by simp only [read?, hop, List.nil_append]⟩
  | some o =>
      rw [Opcode.arity, hop] at h
      obtain rfl := Opcode.opcode_of_operation? hop
      cases o with
      | loadInteger =>
          obtain ⟨w, rfl⟩ := List.length_eq_one_iff.1 h
          exact ⟨loadInteger w, rfl, rfl, fun _ => rfl⟩
      | loadConstant =>
          obtain ⟨w, rfl⟩ := List.length_eq_one_iff.1 h
          exact ⟨loadConstant w, rfl, rfl, fun _ => rfl⟩
      | loadOuterSlot =>
          obtain ⟨w, d, rfl⟩ := List.length_eq_two.1 h
          exact ⟨loadOuterSlot w d, rfl, rfl, fun _ => rfl⟩
      | loadSlot =>
          obtain ⟨w, rfl⟩ := List.length_eq_one_iff.1 h
          exact ⟨loadSlot w, rfl, rfl, fun _ => rfl⟩
      | loadGlobal =>
          obtain ⟨w, rfl⟩ := List.length_eq_one_iff.1 h
          exact ⟨loadGlobal w, rfl, rfl, fun _ => rfl⟩
      | storeGlobal =>
          obtain ⟨w, rfl⟩ := List.length_eq_one_iff.1 h
          exact ⟨storeGlobal w, rfl, rfl, fun _ => rfl⟩
      | storeSlot =>
          obtain ⟨w, rfl⟩ := List.length_eq_one_iff.1 h
          exact ⟨storeSlot w, rfl, rfl, fun _ => rfl⟩
      | enter =>
          obtain rfl := List.eq_nil_of_length_eq_zero h
          exact ⟨enter, rfl, rfl, fun _ => rfl⟩
      | leave =>
          obtain rfl := List.eq_nil_of_length_eq_zero h
          exact ⟨leave, rfl, rfl, fun _ => rfl⟩
      | add =>
          obtain rfl := List.eq_nil_of_length_eq_zero h
          exact ⟨arithmetic .add, rfl, rfl, fun _ => rfl⟩
      | sub =>
          obtain rfl := List.eq_nil_of_length_eq_zero h
          exact ⟨arithmetic .sub, rfl, rfl, fun _ => rfl⟩
      | mul =>
          obtain rfl := List.eq_nil_of_length_eq_zero h
          exact ⟨arithmetic .mul, rfl, rfl, fun _ => rfl⟩
      | div =>
          obtain rfl := List.eq_nil_of_length_eq_zero h
          exact ⟨arithmetic .div, rfl, rfl, fun _ => rfl⟩

end Command

namespace Instruction

/-- The command that an instruction is read as. -/
def command (i : Instruction) : Command :=
  (Command.read? i.opcode (i.operands.map Operand.word)).elim (.reserved i.opcode) Prod.fst

theorem length_words (i : Instruction) : i.words.length = i.width := by
  simp [words, width, Nat.add_comm]

theorem length_operands {i : Instruction} (h : i.isComplete) :
    (i.operands.map Operand.word).length = i.opcode.arity := by
  rw [List.length_map]
  exact beq_iff_eq.1 h

/-- The words of a complete instruction are read as its command, and nothing more is read. -/
theorem read?_operands {i : Instruction} (h : i.isComplete) (rest : List Int) :
    Command.read? i.opcode (i.operands.map Operand.word ++ rest) = some (i.command, rest) := by
  obtain ⟨c, -, -, hread⟩ := Command.read?_of_length (length_operands h)
  have hc : i.command = c := by
    have hnil := hread []
    rw [List.append_nil] at hnil
    rw [command, hnil]
    rfl
  rw [hc]
  exact hread rest

/-- The command of a complete instruction has its code and its operand words. -/
theorem command_spec {i : Instruction} (h : i.isComplete) :
    i.command.opcode = i.opcode ∧ i.command.operands = i.operands.map Operand.word := by
  obtain ⟨c, hop, hws, hread⟩ := Command.read?_of_length (length_operands h)
  have hread' := read?_operands h []
  rw [hread []] at hread'
  cases hread'
  exact ⟨hop, hws⟩

theorem width_command {i : Instruction} (h : i.isComplete) : i.command.width = i.width := by
  rw [Command.width, (command_spec h).2, List.length_map, width]

end Instruction

namespace Line

/-- The lines of instructions whose first word stands at place `p`. -/
def ofInstructions (p : Nat) : List Instruction → List Line
  | [] => []
  | i :: is => ⟨p, .command i.command⟩ :: ofInstructions (p + i.width) is

theorem readFrom_encode {code : List Instruction} (h : ∀ i ∈ code, i.isComplete) :
    ∀ (found : Array Line) (p : Nat),
      readFrom found p (code.flatMap Instruction.words) =
        found ++ (ofInstructions p code).toArray := by
  induction code with
  | nil =>
      intro found p
      simp [readFrom, ofInstructions]
  | cons i is ih =>
      intro found p
      have hi : i.isComplete := h i (List.mem_cons_self ..)
      have hread := Instruction.read?_operands hi (is.flatMap Instruction.words)
      rw [List.flatMap_cons, Instruction.words, List.cons_append, readFrom, Opcode.ofWord?_word]
      dsimp only
      split
      next hnone =>
        rw [hread] at hnone
        cases hnone
      next c rest hsome =>
        rw [hread] at hsome
        cases hsome
        rw [ih (fun j hj => h j (List.mem_cons_of_mem i hj)), Instruction.width_command hi,
          ofInstructions]
        simp

/-- Encoded instructions are read as one line each. -/
theorem ofWords_encode {code : Code} (h : ∀ i ∈ code.toList, i.isComplete) :
    ofWords code.encode = (ofInstructions 0 code.toList).toArray := by
  rw [ofWords, Code.encode, readFrom_encode h]
  simp

end Line

end BlockScript
