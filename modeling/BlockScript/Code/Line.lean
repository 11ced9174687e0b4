import BlockScript.Code.Instruction
import BlockScript.Tree.Basic

/-!
# Reading words as code

A list of words is read from the front, one instruction after the other: a word that is the number
of an operation code, then as many words as the code takes operands.  What is read is a list of
*lines*, each at the place of its first word.  A word that is no operation code is a line by itself,
and an instruction that the end of the words cuts short is the last line.

A listing shows these lines.  It goes on behind a word that is no operation code, where the machine
stops.
-/

namespace BlockScript

/-- A complete instruction read from words. -/
inductive Command where
  | loadInteger (n : Int)
  | loadConstant (place : Int)
  | loadOuterSlot (slot depth : Int)
  | loadSlot (slot : Int)
  | enter
  | leave
  | loadGlobal (slot : Int)
  | storeGlobal (slot : Int)
  | storeSlot (slot : Int)
  | arithmetic (a : Arithmetic)
  /-- An operation code that the machine cannot run. -/
  | reserved (op : Opcode)
deriving DecidableEq

namespace Command

/-- The operation code of a command. -/
def opcode : Command → Opcode
  | loadInteger _ => Operation.loadInteger.opcode
  | loadConstant _ => Operation.loadConstant.opcode
  | loadOuterSlot _ _ => Operation.loadOuterSlot.opcode
  | loadSlot _ => Operation.loadSlot.opcode
  | enter => Operation.enter.opcode
  | leave => Operation.leave.opcode
  | loadGlobal _ => Operation.loadGlobal.opcode
  | storeGlobal _ => Operation.storeGlobal.opcode
  | storeSlot _ => Operation.storeSlot.opcode
  | arithmetic .add => Operation.add.opcode
  | arithmetic .sub => Operation.sub.opcode
  | arithmetic .mul => Operation.mul.opcode
  | arithmetic .div => Operation.div.opcode
  | reserved op => op

/-- The operand words of a command. -/
def operands : Command → List Int
  | loadInteger w | loadConstant w | loadSlot w | loadGlobal w | storeGlobal w | storeSlot w => [w]
  | loadOuterSlot s d => [s, d]
  | enter | leave | arithmetic _ | reserved _ => []

/-- Reads the operands of a code, and gives back the command and the words behind it. -/
def read? (op : Opcode) (ws : List Int) : Option (Command × List Int) :=
  match op.operation?, ws with
  | none, ws => some (reserved op, ws)
  | some .loadInteger, w :: ws => some (loadInteger w, ws)
  | some .loadConstant, w :: ws => some (loadConstant w, ws)
  | some .loadOuterSlot, s :: d :: ws => some (loadOuterSlot s d, ws)
  | some .loadSlot, w :: ws => some (loadSlot w, ws)
  | some .enter, ws => some (enter, ws)
  | some .leave, ws => some (leave, ws)
  | some .loadGlobal, w :: ws => some (loadGlobal w, ws)
  | some .storeGlobal, w :: ws => some (storeGlobal w, ws)
  | some .storeSlot, w :: ws => some (storeSlot w, ws)
  | some .add, ws => some (arithmetic .add, ws)
  | some .sub, ws => some (arithmetic .sub, ws)
  | some .mul, ws => some (arithmetic .mul, ws)
  | some .div, ws => some (arithmetic .div, ws)
  | some _, _ => none

theorem read?_length_le {op : Opcode} {ws rest : List Int} {c : Command}
    (h : read? op ws = some (c, rest)) : rest.length ≤ ws.length := by
  unfold read? at h
  split at h <;> first
    | (simp only [Option.some.injEq, Prod.mk.injEq] at h
       obtain ⟨-, rfl⟩ := h
       simp only [List.length_cons, Nat.le_refl, Nat.le_add_right, Nat.add_assoc])
    | simp at h

/-- The number of words of a command. -/
def width (c : Command) : Nat := 1 + c.operands.length

end Command

/-- What stands on a line. -/
inductive Line.Content where
  /-- A complete instruction. -/
  | command (c : Command)
  /-- A word that is no operation code. -/
  | unknown (w : Int)
  /-- An operation code with too few words behind it. -/
  | truncated (op : Opcode)
deriving DecidableEq

/-- A line: a place among the words and what was read there. -/
structure Line where
  /-- The place of the first word. -/
  position : Nat
  /-- What stands there. -/
  content : Line.Content
deriving DecidableEq

/-- The lines of the words at place `p`, behind those already `found`. -/
def Line.readFrom (found : Array Line) (p : Nat) : List Int → Array Line
  | [] => found
  | w :: ws =>
    match Opcode.ofWord? w with
    | none => Line.readFrom (found.push ⟨p, .unknown w⟩) (p + 1) ws
    | some op =>
      match _h : Command.read? op ws with
      | none => found.push ⟨p, .truncated op⟩
      | some (c, rest) => Line.readFrom (found.push ⟨p, .command c⟩) (p + c.width) rest
termination_by ws => ws.length
decreasing_by
  · simp
  · exact Nat.lt_succ_of_le (Command.read?_length_le ‹_›)

/-- The lines of a list of words. -/
def Line.ofWords (ws : List Int) : Array Line := Line.readFrom #[] 0 ws

/-! ## Listings -/

/-- The number in a pool at the place that a word names. -/
def Line.constant? (constants : Array Number) (w : Int) : Option Number :=
  if 0 ≤ w then constants[w.toNat]? else none

/--
What stands on a line, as listings show it.  A constant is shown behind the code that loads it.
-/
def Line.Content.text (constants : Array Number) : Line.Content → String
  | unknown w => s!"<unknown {w}>"
  | truncated op => s!"{op.name} <truncated>"
  | command c =>
    let code := Instruction.textOf c.opcode c.operands
    match c with
    | .loadConstant w =>
      match Line.constant? constants w with
      | some n => s!"{code} ; {n.describe}"
      | none => code
    | _ => code

/-- A line of a listing: the place in at least four digits, two blanks and the content. -/
def Line.text (constants : Array Number) (l : Line) : String :=
  s!"{Text.padded 4 l.position}  {l.content.text constants}"

/-- The listing of a list of words, with the constants that it loads. -/
def listing (ws : List Int) (constants : Array Number) : String :=
  (Line.ofWords ws).foldl (fun s l => s ++ l.text constants ++ "\n") ""

end BlockScript
