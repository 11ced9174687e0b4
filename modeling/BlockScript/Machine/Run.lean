import BlockScript.Code.Line
import BlockScript.Machine.Slots

/-!
# The machine

The machine has a stack of operands, global variables, a stack of frames and a pool of constants.
It runs a list of words instruction by instruction, from the first to the last; there are no jumps.
A run forgets what earlier runs left in the machine.  It stops at the first instruction that cannot
be read or run, and the machine then shows what the instructions before it did.

A fault happens before an instruction has changed a global variable or a frame.  The operands that a
failing instruction has taken off the stack stay off it.
-/

namespace BlockScript

/-- What can go wrong on a line. -/
inductive Fault where
  /-- The word is no operation code. -/
  | unknownOpcode (w : Int)
  /-- The machine cannot run the operation code. -/
  | unimplemented (op : Opcode)
  /-- Operands are missing at the end of the words. -/
  | truncated (op : Opcode)
  /-- Arithmetic on a value that is no number. -/
  | nonNumeric (kind : String)
  /-- An operand is missing on the stack. -/
  | stackUnderflow
  /-- There is no frame so far out. -/
  | noFrame (depth : Int)
  /-- The pool has no such place. -/
  | constantOutOfRange (place : Int)
  /-- The slot number is negative or too large. -/
  | slotOutOfRange (slot : Int)
  /-- The stack is full. -/
  | stackOverflow (limit : Nat)
deriving DecidableEq

/-- A fault and the place of the line. -/
structure RunError where
  /-- What went wrong. -/
  fault : Fault
  /-- The place of the line among the words. -/
  position : Nat
deriving DecidableEq

/-- The error in words. -/
def RunError.message (e : RunError) : String :=
  let p := e.position
  let words := match e.fault with
    | .unknownOpcode w => s!"unknown opcode {w} at {p}"
    | .unimplemented op => s!"opcode {op.name} is not implemented (at {p})"
    | .truncated op => s!"truncated {op.name} instruction at {p}"
    | .nonNumeric kind => s!"arithmetic on non-numeric {kind} value at {p}"
    | .stackUnderflow => s!"operand stack underflow at {p}"
    | .noFrame d => s!"no scope frame at depth {d} (at {p})"
    | .constantOutOfRange i => s!"constant index {i} out of range at {p}"
    | .slotOutOfRange i => s!"slot {i} out of range at {p}"
    | .stackOverflow limit => s!"operand stack overflow (limit {limit}) at {p}"
  s!"ExecutionError: {words}"

/-- The state of the machine. -/
structure Machine where
  /-- The operands, the newest last. -/
  stack : Array Value := #[]
  /-- The global variables. -/
  globals : Slots := ∅
  /-- The frames, the innermost first. -/
  frames : List Slots := []
  /-- The constants. -/
  pool : Slots := ∅

/-- The greatest slot number, and the greatest place in the pool. -/
def Machine.maxSlot : Nat := 65535

namespace Machine

/-- The state after a line, and its fault if it had one. -/
abbrev Stepped := Machine × Option Fault

/-- Pushes an operand, if the stack has room. -/
def push (limit : Nat) (m : Machine) (v : Value) : Stepped :=
  if m.stack.size < limit then ({ m with stack := m.stack.push v }, none)
  else (m, some (.stackOverflow limit))

/-- The slot number that a word stands for. -/
def slot? (w : Int) : Option Nat :=
  if 0 ≤ w ∧ w.toNat ≤ maxSlot then some w.toNat else none

/-- The frame that many frames further out. -/
def frame? (m : Machine) (depth : Int) : Option Slots :=
  if 0 ≤ depth then m.frames[depth.toNat]? else none

/-- The constant at a place. -/
def constant? (m : Machine) (place : Int) : Option Value :=
  if 0 ≤ place then m.pool.cells[place.toNat]? else none

/-- Pushes a slot of a frame. -/
def loadFrame (limit : Nat) (m : Machine) (slot depth : Int) : Stepped :=
  match slot? slot with
  | none => (m, some (.slotOutOfRange slot))
  | some i =>
    match m.frame? depth with
    | none => (m, some (.noFrame depth))
    | some f => m.push limit (f.read i)

/-- Pops an operand; there is none on an empty stack. -/
def pop (m : Machine) : Option Value × Machine :=
  (m.stack.back?, { m with stack := m.stack.pop })

/-- Pops two operands, the right one first, and pushes the result. -/
def operate (limit : Nat) (m : Machine) (a : Arithmetic) : Stepped :=
  match m.pop with
  | (none, m) => (m, some .stackUnderflow)
  | (some y, m) =>
    match m.pop with
    | (none, m) => (m, some .stackUnderflow)
    | (some x, m) =>
      match x.toDouble?, y.toDouble? with
      | none, _ => (m, some (.nonNumeric x.kindName))
      | some _, none => (m, some (.nonNumeric y.kindName))
      | some x, some y => m.push limit (.number (.float (a.apply x y)))

/-- Runs one command.  `limit` is the greatest number of operands. -/
def step (limit : Nat) (m : Machine) : Command → Stepped
  | .loadInteger n => m.push limit (.number (.integer n))
  | .loadConstant place =>
    match m.constant? place with
    | none => (m, some (.constantOutOfRange place))
    | some v => m.push limit v
  | .loadOuterSlot slot depth => m.loadFrame limit slot depth
  | .loadSlot slot => m.loadFrame limit slot 0
  | .enter => ({ m with frames := ∅ :: m.frames }, none)
  | .leave =>
    match m.frames with
    | [] => (m, some (.noFrame 0))
    | _ :: frames => ({ m with frames := frames }, none)
  | .loadGlobal slot =>
    match slot? slot with
    | none => (m, some (.slotOutOfRange slot))
    | some i => m.push limit (m.globals.read i)
  | .storeGlobal slot =>
    match slot? slot with
    | none => (m, some (.slotOutOfRange slot))
    | some i =>
      match m.pop with
      | (none, m) => (m, some .stackUnderflow)
      | (some v, m) => ({ m with globals := m.globals.store i v }, none)
  | .storeSlot slot =>
    match slot? slot with
    | none => (m, some (.slotOutOfRange slot))
    | some i =>
      match m.pop with
      | (none, m) => (m, some .stackUnderflow)
      | (some v, m) =>
        match m.frames with
        | [] => (m, some (.noFrame 0))
        | f :: frames => ({ m with frames := f.store i v :: frames }, none)
  | .arithmetic a => m.operate limit a
  | .reserved op => (m, some (.unimplemented op))

end Machine

/-- A command that the machine was about to run. -/
structure Dispatch where
  /-- The place of its line. -/
  position : Nat
  /-- The command. -/
  command : Command
  /-- The number of operands on the stack at that time. -/
  depth : Nat

/-- A finished run. -/
structure Run where
  /-- The machine at the end. -/
  machine : Machine
  /-- The error that stopped it, if one did. -/
  error : Option RunError
  /-- The commands that were run, a failing one included. -/
  dispatched : Array Dispatch

/-- The value or the error of a run. -/
def Run.result (r : Run) : Except RunError Unit := r.error.elim (.ok ()) .error

/-- A constant of a program: a number and its place in the pool. -/
structure Constant where
  /-- The place. -/
  place : Nat
  /-- The number. -/
  value : Number
deriving DecidableEq

namespace Machine

/-- The machine without what an earlier run left in it. -/
def clear (m : Machine) : Machine :=
  { m with stack := #[], globals := ∅, frames := [], pool := ∅ }

/-- Puts constants into the pool, in order, up to the first whose place is too large. -/
def load (m : Machine) : List Constant → Stepped
  | [] => (m, none)
  | c :: cs =>
    if c.place ≤ maxSlot then
      load { m with pool := m.pool.store c.place (.number c.value) } cs
    else (m, some (.constantOutOfRange c.place))

/--
Runs the words at place `p`, behind what is already `dispatched`.  Each turn of the loop reads one
instruction from the front of the words and runs it.
-/
def runFrom (m : Machine) (limit : Nat) (dispatched : Array Dispatch) (p : Nat) : List Int → Run
  | [] => ⟨m, none, dispatched⟩
  | w :: ws =>
    match Opcode.ofWord? w with
    | none => ⟨m, some ⟨.unknownOpcode w, p⟩, dispatched⟩
    | some op =>
      match _h : Command.read? op ws with
      | none => ⟨m, some ⟨.truncated op, p⟩, dispatched⟩
      | some (c, rest) =>
        let dispatched := dispatched.push ⟨p, c, m.stack.size⟩
        match m.step limit c with
        | (m, some fault) => ⟨m, some ⟨fault, p⟩, dispatched⟩
        | (m, none) => runFrom m limit dispatched (p + c.width) rest
termination_by ws => ws.length
decreasing_by exact Nat.lt_succ_of_le (Command.read?_length_le ‹_›)

/-- Clears the machine, loads constants and runs words. -/
def run (m : Machine) (limit : Nat) (words : List Int) (constants : List Constant) : Run :=
  match m.clear.load constants with
  | (m, some fault) => ⟨m, some ⟨fault, 0⟩, #[]⟩
  | (m, none) => m.runFrom limit #[] 0 words

end Machine

end BlockScript
