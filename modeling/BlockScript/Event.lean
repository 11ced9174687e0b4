import BlockScript.Machine.Run
import BlockScript.Tree.Resolve

/-!
# The log

While it works, an engine tells what it does.  It announces each step when it starts, and within a
step it reports what it found and how the step ended.
-/

namespace BlockScript

/-- Something that the log tells. -/
inductive Event where
  /-- The run of a source starts. -/
  | executing (file : String)
  /-- The run of a tree starts. -/
  | executingTree
  /-- Resolution starts. -/
  | resolving
  /-- Resolution found something. -/
  | found (f : Finding)
  /-- Resolution is done, with so many contexts, constants and global variables. -/
  | resolved (contexts constants globals : Nat)
  /-- Code generation starts. -/
  | compiling
  /-- Code generation is done, with so many instructions and words. -/
  | compiled (instructions words : Nat)
  /-- The machine starts on so many words. -/
  | running (words : Nat)
  /-- The machine is about to run a command. -/
  | dispatched (d : Dispatch)
  /-- The machine is done, with so many global variables, frames and operands. -/
  | stopped (globals frames stack : Nat)
  /-- The run is done, with so many global variables. -/
  | finished (globals : Nat)

/-- How much a report matters. -/
inductive Level where
  | trace
  | debug
deriving DecidableEq

/-- The name of a level. -/
def Level.name : Level → String
  | trace => "TRACE"
  | debug => "DEBUG"

/-- A named value of a report, as text. -/
abbrev Field := String × String

/-- The form in which the log shows an event. -/
inductive Entry where
  /-- The start of a step. -/
  | span (name : String) (fields : List Field)
  /-- A report within a step. -/
  | report (level : Level) (message : String) (fields : List Field)

/-- Words between brackets. -/
def Event.listText (ws : List Int) : String :=
  "[" ++ String.intercalate ", " (ws.map toString) ++ "]"

/-- An event as the log shows it. -/
def Event.entry : Event → Entry
  | executing file => .span "execute" [("file", file)]
  | executingTree => .span "execute_tree" []
  | resolving => .span "resolve" []
  | found (.declared name slot context) =>
    .report .trace "declared variable"
      [("name", name), ("slot", toString slot), ("context", toString context)]
  | found (.hoisted place value) =>
    .report .trace "hoisted constant" [("index", toString place), ("value", value.describe)]
  | resolved contexts constants globals =>
    .report .debug "resolved program"
      [("contexts", toString contexts), ("constants", toString constants),
        ("globals", toString globals)]
  | compiling => .span "compile" []
  | compiled instructions words =>
    .report .debug "compiled program"
      [("instructions", toString instructions), ("words", toString words)]
  | running words => .span "run" [("words", toString words)]
  | dispatched d =>
    .report .trace "dispatch"
      [("position", toString d.position), ("opcode", d.command.opcode.name),
        ("operands", Event.listText d.command.operands), ("stack", toString d.depth)]
  | stopped globals frames stack =>
    .report .debug "execution finished"
      [("globals", toString globals), ("frames", toString frames), ("stack", toString stack)]
  | finished globals => .report .debug "program finished" [("globals", toString globals)]

/-- What the log tells about a run of the machine.  Commands are told only if `trace` holds. -/
def Run.events (r : Run) (trace : Bool) (words : Nat) : Array Event :=
  let start := #[Event.running words] ++ if trace then r.dispatched.map .dispatched else #[]
  match r.error with
  | some _ => start
  | none =>
    start.push (.stopped r.machine.globals.size r.machine.frames.length r.machine.stack.size)

end BlockScript
