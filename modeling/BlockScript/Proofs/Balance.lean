import BlockScript.Proofs.Machine.Execution
import BlockScript.Proofs.Machine.Invariant

/-!
# Generated code is balanced

Code generation believes the notes in a tree, and a tree may have any.  Its code may then store into
slots that no name has, or look for frames that are not there.  But it always has a form
(`ExpressionCode`, `StatementCode`) that follows the tree and not the notes: an expression pushes
one operand, and statements leave the stack and the frames as high as they found them.

The form is followed by a machine that knows only how many operands and frames there are
(`Command.shift`).  It never lacks one, and the real machine keeps in step with it
(`Machine.heights_step`).  So a run of generated code never lacks an operand, nor a frame to leave,
and ends with none left.  The main statement is `Emitter.emit_balanced`.
-/

namespace BlockScript

/-! ## The form of the code -/

/-- The instructions that push an operand and take none. -/
inductive Instruction.IsLoad : Instruction → Prop where
  | integer {n : Int} : IsLoad (Operation.loadInteger.on [.immediate n])
  | constant {place : Nat} : IsLoad (Operation.loadConstant.on [.constant place])
  | global {slot : Nat} : IsLoad (Operation.loadGlobal.on [.slot slot])
  | inner {slot : Nat} : IsLoad (Operation.loadSlot.on [.slot slot])
  | outer {slot depth : Nat} : IsLoad (Operation.loadOuterSlot.on [.slot slot, .depth depth])

theorem Binding.isLoad_load (b : Binding) : b.load.IsLoad := by
  obtain ⟨context, slot, reach⟩ := b
  cases reach with
  | global => exact .global
  | frame depth =>
      cases depth with
      | zero => exact .inner
      | succ depth => exact .outer

/-- The form of the code for an expression. -/
inductive ExpressionCode : List Instruction → Prop where
  | load {i : Instruction} : i.IsLoad → ExpressionCode [i]
  | operation (a : Arithmetic) {code₁ code₂ : List Instruction} : ExpressionCode code₁ →
      ExpressionCode code₂ → ExpressionCode (code₁ ++ code₂ ++ [a.operation.on []])

/-- The form of the code for statements.  A block whose context is global has the code of its
statements alone. -/
inductive StatementCode : List Instruction → Prop where
  | nil : StatementCode []
  | store (isGlobal : Bool) (slot : Nat) {code rest : List Instruction} : ExpressionCode code →
      StatementCode rest →
      StatementCode (code ++
        (if isGlobal then Operation.storeGlobal else Operation.storeSlot).on [.slot slot] :: rest)
  | block {body rest : List Instruction} : StatementCode body → StatementCode rest →
      StatementCode (Operation.enter.on [] :: body ++ Operation.leave.on [] :: rest)

theorem StatementCode.append {code more : List Instruction} (h : StatementCode code)
    (hmore : StatementCode more) : StatementCode (code ++ more) := by
  induction h with
  | nil => exact hmore
  | store isGlobal slot hcode _ ih =>
      rw [List.append_assoc, List.cons_append]
      exact .store isGlobal slot hcode ih
  | block hbody _ _ ih =>
      rw [List.append_assoc, List.cons_append]
      exact .block hbody ih

/-- Code for an expression has its form, whatever the notes are. -/
theorem Tree.emitExpression_form : ∀ (t : Tree) {acc out : Code},
    t.emitExpression acc = .ok out →
    ∃ code, out = acc ++ code.toArray ∧ ExpressionCode code
  | block .., acc, out, h => by
      rw [emitExpression] at h
      cases h
  | declaration .., acc, out, h => by
      rw [emitExpression] at h
      cases h
  | operation site op left right, acc, out, h => by
      cases op with
      | equal | notEqual =>
          rw [emitExpression] at h
          cases h
      | arithmetic a =>
          simp only [emitExpression] at h
          split at h
          next => cases h
          next acc₁ hl =>
            split at h
            next => cases h
            next acc₂ hr =>
              cases h
              obtain ⟨code₁, rfl, hcode₁⟩ := left.emitExpression_form hl
              obtain ⟨code₂, rfl, hcode₂⟩ := right.emitExpression_form hr
              refine ⟨_, ?_, .operation a hcode₁ hcode₂⟩
              simp
  | identifier site name binding, acc, out, h => by
      cases binding with
      | none =>
          rw [emitExpression] at h
          cases h
      | some b =>
          cases h
          exact ⟨[b.load], by simp, .load b.isLoad_load⟩
  | literal site value constant, acc, out, h => by
      simp only [emitExpression] at h
      split at h
      next n _ =>
        cases h
        exact ⟨[Operation.loadInteger.on [.immediate n]], by simp, .load .integer⟩
      next place _ =>
        cases h
        exact ⟨[Operation.loadConstant.on [.constant place]], by simp, .load .constant⟩
      next => cases h

namespace Tree

mutual

/-- Code for a statement has its form, whatever the notes and the contexts are. -/
theorem emitStatement_form (scopes : Scopes) : ∀ (t : Tree) {acc out : Code},
    t.emitStatement scopes acc = .ok out →
    ∃ code, out = acc ++ code.toArray ∧ StatementCode code
  | block site body, acc, out, h => by
      simp only [emitStatement] at h
      split at h
      next => cases h
      next id _ =>
        split at h
        next => cases h
        next c _ =>
          split at h
          next => exact emitStatements_form scopes body h
          next =>
            split at h
            next => cases h
            next acc₁ hbody =>
              cases h
              obtain ⟨code, rfl, hcode⟩ := emitStatements_form scopes body hbody
              exact ⟨_, by simp, .block hcode .nil⟩
  | declaration site name slot init, acc, out, h => by
      simp only [emitStatement] at h
      split at h
      next id slot _ =>
        split at h
        next => cases h
        next acc₁ hinit =>
          split at h
          next => cases h
          next c _ =>
            cases h
            obtain ⟨code, rfl, hcode⟩ := init.emitExpression_form hinit
            refine ⟨_, ?_, .store c.isGlobal slot hcode .nil⟩
            simp
      next => cases h
  | operation .., acc, out, h => by
      rw [emitStatement] at h
      cases h
  | identifier .., acc, out, h => by
      rw [emitStatement] at h
      cases h
  | literal .., acc, out, h => by
      rw [emitStatement] at h
      cases h

theorem emitStatements_form (scopes : Scopes) : ∀ (ts : List Tree) {acc out : Code},
    emitStatements scopes ts acc = .ok out →
    ∃ code, out = acc ++ code.toArray ∧ StatementCode code
  | [], acc, out, h => by
      cases h
      exact ⟨[], by simp, .nil⟩
  | t :: ts, acc, out, h => by
      obtain ⟨acc₁, ht, hts⟩ := emitStatements_cons_ok h
      obtain ⟨code₁, rfl, hcode₁⟩ := emitStatement_form scopes t ht
      obtain ⟨code₂, rfl, hcode₂⟩ := emitStatements_form scopes ts hts
      exact ⟨_, by simp, hcode₁.append hcode₂⟩

end

end Tree

/-! ## Instructions -/

/-- The instruction is one that the machine can run, with the operands that it takes. -/
def Instruction.IsRunnable (i : Instruction) : Prop :=
  i.isComplete = true ∧ i.opcode.isImplemented = true

theorem Operation.operation?_opcode (op : Operation) : op.opcode.operation? = some op := by
  cases op with
  | _ => rfl

theorem Operation.isRunnable_on {op : Operation} {operands : List Operand}
    (h : operands.length = op.arity) : (op.on operands).IsRunnable := by
  constructor
  · rw [Instruction.isComplete, beq_iff_eq]
    show operands.length = op.opcode.arity
    rw [Opcode.arity, operation?_opcode]
    exact h
  · show op.opcode.isImplemented = true
    rw [Opcode.isImplemented, operation?_opcode]
    rfl

theorem Instruction.IsLoad.isRunnable {i : Instruction} (h : i.IsLoad) : i.IsRunnable := by
  cases h with
  | _ => exact Operation.isRunnable_on rfl

/-- All instructions of an expression can be run. -/
theorem ExpressionCode.isRunnable {code : List Instruction} (h : ExpressionCode code) :
    ∀ i ∈ code, i.IsRunnable := by
  induction h with
  | load hi =>
      intro i hmem
      cases List.mem_singleton.1 hmem
      exact hi.isRunnable
  | operation a _ _ ih₁ ih₂ =>
      intro i hmem
      rw [List.mem_append, List.mem_append, List.mem_singleton] at hmem
      obtain (hmem | hmem) | rfl := hmem
      · exact ih₁ i hmem
      · exact ih₂ i hmem
      · cases a with
        | _ => exact Operation.isRunnable_on rfl

/-- All instructions of statements can be run. -/
theorem StatementCode.isRunnable {code : List Instruction} (h : StatementCode code) :
    ∀ i ∈ code, i.IsRunnable := by
  induction h with
  | nil => nofun
  | store isGlobal slot hcode _ ih =>
      intro i hmem
      rw [List.mem_append, List.mem_cons] at hmem
      obtain hmem | rfl | hmem := hmem
      · exact hcode.isRunnable i hmem
      · cases isGlobal with
        | _ => exact Operation.isRunnable_on rfl
      · exact ih i hmem
  | block _ _ ihbody ih =>
      intro i hmem
      rw [List.cons_append, List.mem_cons, List.mem_append, List.mem_cons] at hmem
      obtain rfl | hmem | rfl | hmem := hmem
      · exact Operation.isRunnable_on rfl
      · exact ihbody i hmem
      · exact Operation.isRunnable_on rfl
      · exact ih i hmem

/-! ## Nesting -/

/-- Every instruction that opens a frame has one behind it that drops the frame, with balanced code
between the two, and there are no others that drop one. -/
inductive Balanced : List Instruction → Prop where
  | nil : Balanced []
  | cons {i : Instruction} {rest : List Instruction} : i.opcode ≠ Operation.enter.opcode →
      i.opcode ≠ Operation.leave.opcode → Balanced rest → Balanced (i :: rest)
  | nested {inner rest : List Instruction} : Balanced inner → Balanced rest →
      Balanced (Operation.enter.on [] :: inner ++ Operation.leave.on [] :: rest)

theorem Operation.opcode_ne {op op' : Operation} (h : op ≠ op') : op.opcode ≠ op'.opcode := by
  intro heq
  have hop := congrArg Opcode.operation? heq
  rw [operation?_opcode, operation?_opcode] at hop
  exact h (Option.some.inj hop)

theorem Balanced.cons_on {op : Operation} (henter : op ≠ .enter) (hleave : op ≠ .leave)
    {operands : List Operand} {rest : List Instruction} (h : Balanced rest) :
    Balanced (op.on operands :: rest) :=
  .cons (Operation.opcode_ne henter) (Operation.opcode_ne hleave) h

/-- Code for an expression opens no frame and drops none. -/
theorem ExpressionCode.append_balanced {code : List Instruction} (h : ExpressionCode code) :
    ∀ {rest : List Instruction}, Balanced rest → Balanced (code ++ rest) := by
  induction h with
  | load hi =>
      intro rest hrest
      cases hi with
      | _ => exact .cons_on (by decide) (by decide) hrest
  | operation a _ _ ih₁ ih₂ =>
      intro rest hrest
      rw [List.append_assoc, List.append_assoc]
      refine ih₁ (ih₂ ?_)
      cases a with
      | _ => exact .cons_on (by decide) (by decide) hrest

theorem StatementCode.balanced {code : List Instruction} (h : StatementCode code) :
    Balanced code := by
  induction h with
  | nil => exact .nil
  | store isGlobal slot hcode _ ih =>
      refine hcode.append_balanced ?_
      cases isGlobal with
      | _ => exact .cons_on (by decide) (by decide) ih
  | block _ _ ihbody ih => exact .nested ihbody ih

/-! ## Heights -/

/-- How many operands and how many frames there are. -/
structure Heights where
  /-- The number of operands. -/
  operands : Nat
  /-- The number of frames. -/
  frames : Nat

/-- What a command makes of the heights, if there are the operands that it takes and the frame that
it drops.  The frame of a variable is not asked for. -/
def Command.shift : Command → Heights → Option Heights
  | loadInteger _, h | loadConstant _, h | loadOuterSlot _ _, h | loadSlot _, h | loadGlobal _, h =>
    some ⟨h.operands + 1, h.frames⟩
  | enter, h => some ⟨h.operands, h.frames + 1⟩
  | leave, ⟨operands, frames + 1⟩ => some ⟨operands, frames⟩
  | storeGlobal _, ⟨operands + 1, frames⟩ | storeSlot _, ⟨operands + 1, frames⟩ =>
    some ⟨operands, frames⟩
  | arithmetic _, ⟨operands + 2, frames⟩ => some ⟨operands + 1, frames⟩
  | _, _ => none

theorem Command.pos_of_shift {c : Command} {slot : Int} {h h' : Heights}
    (hc : c = .storeGlobal slot ∨ c = .storeSlot slot) (hshift : c.shift h = some h') :
    0 < h.operands := by
  obtain ⟨operands, frames⟩ := h
  cases operands with
  | zero =>
      obtain rfl | rfl := hc
      · cases hshift
      · cases hshift
  | succ operands => exact Nat.succ_pos operands

theorem Command.two_le_of_shift {a : Arithmetic} {h h' : Heights}
    (hshift : (Command.arithmetic a).shift h = some h') : 2 ≤ h.operands := by
  obtain ⟨operands, frames⟩ := h
  match operands, hshift with
  | operands + 2, _ => exact Nat.le_add_left 2 operands

/-- The heights behind instructions. -/
def Heights.after (h : Heights) (code : List Instruction) : Option Heights :=
  code.foldlM (fun h i => i.command.shift h) h

theorem Heights.after_append {h h' : Heights} {code : List Instruction}
    (hcode : h.after code = some h') (more : List Instruction) :
    h.after (code ++ more) = h'.after more := by
  rw [after, List.foldlM_append]
  exact congrArg (· >>= _) hcode

theorem Heights.after_cons {h h' : Heights} {i : Instruction}
    (hi : i.command.shift h = some h') (code : List Instruction) :
    h.after (i :: code) = h'.after code := by
  rw [after, List.foldlM_cons, hi]
  rfl

theorem Heights.of_after_cons {h h' : Heights} {i : Instruction} {code : List Instruction}
    (hcode : h.after (i :: code) = some h') :
    ∃ h₁, i.command.shift h = some h₁ ∧ h₁.after code = some h' := by
  rw [after, List.foldlM_cons] at hcode
  exact Option.bind_eq_some_iff.1 hcode

/-- An expression pushes one operand. -/
theorem ExpressionCode.after {code : List Instruction} (hcode : ExpressionCode code) :
    ∀ h : Heights, h.after code = some ⟨h.operands + 1, h.frames⟩ := by
  induction hcode with
  | load hi =>
      intro h
      cases hi with
      | _ => rfl
  | operation a _ _ ih₁ ih₂ =>
      intro h
      rw [List.append_assoc, Heights.after_append (ih₁ h), Heights.after_append (ih₂ _)]
      refine (Heights.after_cons ?_ []).trans rfl
      rw [Machine.command_arithmetic]
      rfl

/-- Statements leave the heights as they are. -/
theorem StatementCode.after {code : List Instruction} (hcode : StatementCode code) :
    ∀ h : Heights, h.after code = some h := by
  induction hcode with
  | nil => exact fun h => rfl
  | store isGlobal slot hinit _ ih =>
      intro h
      rw [Heights.after_append (hinit.after h)]
      cases isGlobal with
      | _ => exact (Heights.after_cons rfl _).trans (ih h)
  | block _ _ ihbody ih =>
      intro h
      rw [List.cons_append, Heights.after_cons rfl, Heights.after_append (ihbody _)]
      exact (Heights.after_cons rfl _).trans (ih h)

/-! ## Faults -/

/-- The faults that a command can still have if there are the operands that it takes and the frame
that it drops. -/
inductive Command.MayFault (c : Command) : Fault → Prop where
  | nonNumeric {kind : String} : MayFault c (.nonNumeric kind)
  | noFrame {depth : Int} : c ≠ .leave → MayFault c (.noFrame depth)
  | constantOutOfRange {place : Int} : MayFault c (.constantOutOfRange place)
  | slotOutOfRange {slot : Int} : MayFault c (.slotOutOfRange slot)
  | stackOverflow {limit : Nat} : MayFault c (.stackOverflow limit)

namespace Machine

/-- The heights of a machine. -/
def heights (m : Machine) : Heights := ⟨m.stack.size, m.frames.length⟩

/-- A command without a fault shifts the heights of the machine. -/
theorem heights_step {limit : Nat} {m m' : Machine} {c : Command} {h : Heights}
    (hshift : c.shift m.heights = some h) (hstep : m.step limit c = (m', none)) :
    m'.heights = h := by
  have heffect := step_effect limit m c
  rw [hstep] at heffect
  cases heffect with
  | loadInteger _ | loadConstant _ _ | loadOuterSlot _ _ _ | loadSlot _ _ _ | loadGlobal _ _ =>
      cases hshift
      simp [heights, pushed]
  | enter =>
      cases hshift
      rfl
  | leave hframes =>
      rw [heights, hframes] at hshift
      cases hshift
      rfl
  | storeGlobal _ hstack =>
      rw [heights, hstack, Array.size_push] at hshift
      cases hshift
      rfl
  | storeSlot _ hstack hframes =>
      rw [heights, hstack, Array.size_push, hframes] at hshift
      cases hshift
      rfl
  | arithmetic hstack _ _ _ =>
      rw [heights, hstack, Array.size_push, Array.size_push] at hshift
      cases hshift
      simp [heights, pushed, withStack]

theorem pop_of_pos {m : Machine} (h : 0 < m.stack.size) :
    ∃ stack v, m.stack = stack.push v ∧ m.pop = (some v, m.withStack stack) := by
  obtain hpop | hpop := m.pop_cases
  · have hback : m.stack.back? = none := congrArg Prod.fst hpop
    rw [Array.back?_eq_none_iff.1 hback] at h
    cases h
  · exact hpop

theorem push_mayFault {limit : Nat} {m m' : Machine} {v : Value} {fault : Fault}
    (h : m.push limit v = (m', some fault)) (c : Command) : c.MayFault fault := by
  rw [push] at h
  split at h
  next => cases h
  next =>
    cases h
    exact .stackOverflow

theorem loadFrame_mayFault {limit : Nat} {m m' : Machine} {slot depth : Int} {fault : Fault}
    (h : m.loadFrame limit slot depth = (m', some fault)) {c : Command}
    (hc : c ≠ .leave) : c.MayFault fault := by
  rw [loadFrame] at h
  split at h
  next =>
    cases h
    exact .slotOutOfRange
  next =>
    split at h
    next =>
      cases h
      exact .noFrame hc
    next => exact push_mayFault h c

theorem operate_mayFault {limit : Nat} {m m' : Machine} {a : Arithmetic} {fault : Fault}
    (hsize : 2 ≤ m.stack.size) (h : m.operate limit a = (m', some fault)) (c : Command) :
    c.MayFault fault := by
  obtain ⟨stack₁, y, hstack₁, hy⟩ := pop_of_pos (Nat.lt_of_lt_of_le Nat.two_pos hsize)
  rw [hstack₁, Array.size_push] at hsize
  have hsize₁ : 0 < (m.withStack stack₁).stack.size := Nat.le_of_succ_le_succ hsize
  obtain ⟨stack, x, -, hx⟩ := pop_of_pos hsize₁
  rw [operate, hy] at h
  simp only [hx] at h
  split at h
  next =>
    cases h
    exact .nonNumeric
  next =>
    cases h
    exact .nonNumeric
  next => exact push_mayFault h c

/-- A command that does not lack an operand, nor a frame to drop, has no fault for want of one. -/
theorem step_mayFault {limit : Nat} {m m' : Machine} {c : Command} {h : Heights} {fault : Fault}
    (hshift : c.shift m.heights = some h) (hstep : m.step limit c = (m', some fault)) :
    c.MayFault fault := by
  cases c with
  | loadInteger n => exact push_mayFault hstep _
  | loadConstant place =>
      rw [step] at hstep
      split at hstep
      next =>
        cases hstep
        exact .constantOutOfRange
      next => exact push_mayFault hstep _
  | loadOuterSlot slot depth => exact loadFrame_mayFault hstep (by simp)
  | loadSlot slot => exact loadFrame_mayFault hstep (by simp)
  | enter => cases hstep
  | leave =>
      rw [step] at hstep
      split at hstep
      next hframes =>
        rw [heights, hframes] at hshift
        cases hshift
      next => cases hstep
  | loadGlobal slot =>
      rw [step] at hstep
      split at hstep
      next =>
        cases hstep
        exact .slotOutOfRange
      next => exact push_mayFault hstep _
  | storeGlobal slot =>
      obtain ⟨stack, v, -, hpop⟩ := pop_of_pos (Command.pos_of_shift (.inl rfl) hshift)
      rw [step] at hstep
      split at hstep
      next =>
        cases hstep
        exact .slotOutOfRange
      next =>
        rw [hpop] at hstep
        cases hstep
  | storeSlot slot =>
      obtain ⟨stack, v, -, hpop⟩ := pop_of_pos (Command.pos_of_shift (.inr rfl) hshift)
      rw [step] at hstep
      split at hstep
      next =>
        cases hstep
        exact .slotOutOfRange
      next =>
        simp only [hpop] at hstep
        split at hstep
        next =>
          cases hstep
          exact .noFrame (by simp)
        next => cases hstep
  | arithmetic a => exact operate_mayFault (Command.two_le_of_shift hshift) hstep _
  | reserved op => cases hshift

/-! ## Runs -/

theorem heights_load (constants : List Constant) :
    ∀ m : Machine, (m.load constants).1.heights = m.heights := by
  induction constants with
  | nil => exact fun m => rfl
  | cons c cs ih =>
      intro m
      rw [load]
      split
      next => exact ih _
      next => rfl

/-- Where the heights never lack anything, a run to the end has the heights behind the code, and a
run that fails does so at one of the instructions, for another reason. -/
theorem runLines_mayFault (limit : Nat) {code : List Instruction} {h : Heights} :
    ∀ (m : Machine) (dispatched : Array Dispatch) (p : Nat), m.heights.after code = some h →
      ((m.runLines limit dispatched (Line.ofInstructions p code)).error = none →
        (m.runLines limit dispatched (Line.ofInstructions p code)).machine.heights = h) ∧
      ∀ e, (m.runLines limit dispatched (Line.ofInstructions p code)).error = some e →
        ∃ code₁ i code₂, code = code₁ ++ i :: code₂ ∧
          e.position = p + (code₁.flatMap Instruction.words).length ∧
          i.command.MayFault e.fault := by
  induction code with
  | nil =>
      intro m dispatched p hafter
      cases hafter
      exact ⟨fun _ => rfl, by simp [runLines, Line.ofInstructions]⟩
  | cons i code ih =>
      intro m dispatched p hafter
      obtain ⟨h₁, hshift, hrest⟩ := Heights.of_after_cons hafter
      rw [Line.ofInstructions]
      cases hstep : m.step limit i.command with
      | mk m₁ fault =>
          cases fault with
          | some fault =>
              rw [runLines_fault hstep]
              refine ⟨by simp, ?_⟩
              rintro e ⟨⟩
              exact ⟨[], i, code, rfl, rfl, step_mayFault hshift hstep⟩
          | none =>
              rw [runLines_ok hstep]
              -- The machine behind the instruction has the heights that the rest starts from.
              rw [← heights_step hshift hstep] at hrest
              obtain ⟨hok, hfail⟩ := ih m₁ (dispatched.push ⟨p, i.command, m.stack.size⟩)
                (p + i.width) hrest
              refine ⟨hok, ?_⟩
              intro e he
              -- The place of the failing instruction is behind the words of this one.
              obtain ⟨code₁, i', code₂, rfl, hp, hmay⟩ := hfail e he
              refine ⟨i :: code₁, i', code₂, rfl, ?_, hmay⟩
              rw [hp, List.flatMap_cons, List.length_append, i.length_words, Nat.add_assoc]

end Machine

/-- A run of generated code ends with no operand and no frame, or it fails, at its constants or at
an instruction. -/
theorem StatementCode.run_mayFault {code : Code} (h : StatementCode code.toList) (m : Machine)
    (limit : Nat) (constants : List Constant) :
    ((m.run limit code.encode constants).error = none →
      (m.run limit code.encode constants).machine.heights = ⟨0, 0⟩) ∧
    ∀ e, (m.run limit code.encode constants).error = some e →
      (∃ place, e.fault = .constantOutOfRange place) ∨
      ∃ code₁ i code₂, code.toList = code₁ ++ i :: code₂ ∧
        e.position = (code₁.flatMap Instruction.words).length ∧ i.command.MayFault e.fault := by
  have hcomplete : ∀ i ∈ code.toList, i.isComplete := fun i hi => (h.isRunnable i hi).1
  have hheights := Machine.heights_load constants m.clear
  cases hload : m.clear.load constants with
  | mk m₀ fault =>
      cases fault with
      | some fault =>
          obtain ⟨place, rfl⟩ := Machine.load_fault hload
          rw [Machine.run, hload]
          refine ⟨by simp, ?_⟩
          rintro e ⟨⟩
          exact Or.inl ⟨place, rfl⟩
      | none =>
          rw [hload] at hheights
          have hafter : m₀.heights.after code.toList = some ⟨0, 0⟩ := hheights ▸ h.after ⟨0, 0⟩
          rw [Machine.run_of_load hload, Line.ofWords_encode hcomplete]
          obtain ⟨hok, hfail⟩ := Machine.runLines_mayFault limit m₀ #[] 0 hafter
          refine ⟨hok, ?_⟩
          intro e he
          obtain ⟨code₁, i, code₂, hcode, hp, hmay⟩ := hfail e he
          exact Or.inr ⟨code₁, i, code₂, hcode, hp.trans (Nat.zero_add _), hmay⟩

/-! ## Generated code -/

/-- The word at the place of an instruction is that of its code. -/
theorem Code.getElem?_encode {code : Code} {code₁ code₂ : List Instruction} {i : Instruction}
    (h : code.toList = code₁ ++ i :: code₂) :
    code.encode[(code₁.flatMap Instruction.words).length]? = some i.opcode.word := by
  rw [encode, h, List.flatMap_append, List.getElem?_append_right (Nat.le_refl _), Nat.sub_self]
  rfl

/-- A complete instruction with the code that drops a frame is read as the command that does. -/
theorem Instruction.command_eq_leave {i : Instruction} (h : i.isComplete)
    (hop : i.opcode = Operation.leave.opcode) : i.command = .leave := by
  obtain ⟨op, operands⟩ := i
  cases hop
  obtain rfl : operands = [] := List.eq_nil_of_length_eq_zero (beq_iff_eq.1 h)
  rfl

/-- Code generation is balanced, whatever the notes in the tree and the contexts are.  Every
instruction is one that the machine can run, with as many operands as it takes, and the frames are
nested.  On any machine, with any constants and any room, a run of the code fails for want of
neither a code, an operand in the words, an operand on the stack nor a frame to drop; and if it does
not fail, it leaves no operand and no frame. -/
theorem Emitter.emit_balanced {scopes : Scopes} {p : Program} {code : Code}
    (h : (({} : Emitter).emit scopes p).2 = .ok code) :
    (∀ i ∈ code.toList, i.isComplete = true ∧ i.opcode.isImplemented = true) ∧
    Balanced code.toList ∧
    ∀ (m : Machine) (limit : Nat) (constants : List Constant) (r : Run),
      m.run limit code.encode constants = r →
      (r.error = none → r.machine.stack.size = 0 ∧ r.machine.frames.length = 0) ∧
      ∀ e, r.error = some e →
        (∀ w, e.fault ≠ .unknownOpcode w) ∧ (∀ op, e.fault ≠ .unimplemented op) ∧
        (∀ op, e.fault ≠ .truncated op) ∧ e.fault ≠ .stackUnderflow ∧
        ∀ depth, e.fault = .noFrame depth →
          code.encode[e.position]? ≠ some Operation.leave.opcode.word := by
  have hform : StatementCode code.toList := by
    rw [emit] at h
    split at h
    next out hout =>
      cases h
      obtain ⟨code, rfl, hcode⟩ := p.toTree.emitStatement_form scopes hout
      simpa using hcode
    next => cases h
  refine ⟨hform.isRunnable, hform.balanced, ?_⟩
  rintro m limit constants r rfl
  obtain ⟨hok, hfail⟩ := hform.run_mayFault m limit constants
  constructor
  · intro he
    exact ⟨congrArg Heights.operands (hok he), congrArg Heights.frames (hok he)⟩
  · rintro ⟨fault, position⟩ he
    obtain ⟨place, rfl⟩ | ⟨code₁, i, code₂, hcode, rfl, hmay⟩ := hfail _ he
    · exact ⟨nofun, nofun, nofun, nofun, nofun⟩
    · cases hmay with
      | noFrame hleave =>
          refine ⟨nofun, nofun, nofun, nofun, ?_⟩
          intro _ _ hword
          rw [Code.getElem?_encode hcode] at hword
          have hop : i.opcode = Operation.leave.opcode := by
            have hofWord := congrArg Opcode.ofWord? (Option.some.inj hword)
            rw [Opcode.ofWord?_word, Opcode.ofWord?_word] at hofWord
            exact Option.some.inj hofWord
          have hi : i ∈ code.toList := by simp [hcode]
          exact hleave (Instruction.command_eq_leave (hform.isRunnable i hi).1 hop)
      | _ => exact ⟨nofun, nofun, nofun, nofun, nofun⟩

/-- The program `var a = b;` with notes that no resolution makes: the outermost block has the
context of an inner one, the declaration a context around it, and the identifier a frame far
out. -/
def Program.adrift : Program where
  site := ⟨Site.nowhere.location, some 1⟩
  body := [.declaration ⟨Site.nowhere.location, some 0⟩ "a" (some 3)
    (.identifier .nowhere "b" (some ⟨7, 2, .frame 5⟩))]

/-- Two contexts, one in the other. -/
def Scopes.nested : Scopes :=
  (push ∅ none Site.nowhere.location).push (some 0) Site.nowhere.location

/-- The code looks for a frame that is not there, but not to drop it. -/
theorem Emitter.emit_balanced_adrift :
    (({} : Emitter).emit .nested .adrift).2 = .ok #[Operation.enter.on [],
      Operation.loadOuterSlot.on [.slot 2, .depth 5], Operation.storeGlobal.on [.slot 3],
      Operation.leave.on []] ∧
    Balanced [Operation.enter.on [], Operation.loadOuterSlot.on [.slot 2, .depth 5],
      Operation.storeGlobal.on [.slot 3], Operation.leave.on []] ∧
    (Machine.run {} 8 [27, 21, 2, 5, 36, 3, 28] [⟨0, .integer 7⟩]).error =
      some ⟨.noFrame 5, 1⟩ ∧
    ([27, 21, 2, 5, 36, 3, 28] : List Int)[1]? ≠ some Operation.leave.opcode.word := by
  have hemit : (({} : Emitter).emit .nested .adrift).2 = .ok #[Operation.enter.on [],
      Operation.loadOuterSlot.on [.slot 2, .depth 5], Operation.storeGlobal.on [.slot 3],
      Operation.leave.on []] := rfl
  have herror : (Machine.run {} 8 [27, 21, 2, 5, 36, 3, 28] [⟨0, .integer 7⟩]).error =
      some ⟨.noFrame 5, 1⟩ := by cbv
  obtain ⟨-, hbalanced, hrun⟩ := emit_balanced hemit
  obtain ⟨-, hfail⟩ := hrun {} 8 [⟨0, .integer 7⟩] _ rfl
  obtain ⟨-, -, -, -, hleave⟩ := hfail _ herror
  exact ⟨hemit, hbalanced, herror, hleave 5 rfl⟩

end BlockScript
