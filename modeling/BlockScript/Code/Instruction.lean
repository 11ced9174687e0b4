import BlockScript.Code.Opcode

/-!
# Instructions

Code is built as a list of instructions and then flattened into words: the word of the operation
code, followed by the words of the operands.  Operands know what they are for; their words do not.
-/

namespace BlockScript

/-- An operand of an instruction, by its use. -/
inductive Operand where
  /-- An integer in the code itself. -/
  | immediate (n : Int)
  /-- A place in the pool of constants. -/
  | constant (place : Nat)
  /-- A slot. -/
  | slot (slot : Nat)
  /-- A number of frames to pass over. -/
  | depth (depth : Nat)
deriving DecidableEq

namespace Operand

/-- The operand as a word. -/
def word : Operand → Int
  | immediate n => n
  | constant n | slot n | depth n => n

/-- The use of an operand, in short. -/
def kindName : Operand → String
  | immediate _ => "imm"
  | constant _ => "const"
  | slot _ => "slot"
  | depth _ => "depth"

end Operand

/-- An operation code with operands. -/
structure Instruction where
  /-- The operation code. -/
  opcode : Opcode
  /-- The operands, in order. -/
  operands : List Operand := []
deriving DecidableEq

/-- The instruction of an operation on operands. -/
def Operation.on (op : Operation) (operands : List Operand) : Instruction :=
  ⟨op.opcode, operands⟩

namespace Instruction

/-- Whether the instruction has as many operands as its code takes. -/
def isComplete (i : Instruction) : Bool := i.operands.length == i.opcode.arity

/-- The number of words of an instruction. -/
def width (i : Instruction) : Nat := 1 + i.operands.length

/-- The words of an instruction. -/
def words (i : Instruction) : List Int := i.opcode.word :: i.operands.map Operand.word

/-- Text of an operation code and operand words, separated by blanks. -/
def textOf (op : Opcode) (operands : List Int) : String :=
  operands.foldl (fun s w => s ++ s!" {w}") op.name

/-- The text of an instruction. -/
def text (i : Instruction) : String := textOf i.opcode (i.operands.map Operand.word)

end Instruction

/-- A list of instructions. -/
abbrev Code := Array Instruction

/-- The words of all instructions, one after the other. -/
def Code.encode (code : Code) : List Int := code.toList.flatMap Instruction.words

/-- The number of words of all instructions together. -/
def Code.width (code : Code) : Nat := code.foldl (fun n i => n + i.width) 0

end BlockScript
