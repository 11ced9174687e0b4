import BlockScript.Error
import BlockScript.Event

/-!
# The engine

An engine takes a source through all steps: it parses, resolves, generates code and runs it, and
then answers questions about the global variables.  Every run starts afresh.  After a source that
did not become code the engine has no program; after a run that failed it has the program, and the
variables as the run left them.
-/

namespace BlockScript

/-- A program as code, with the contexts that it was made from. -/
structure Compilation where
  /-- The contexts. -/
  scopes : Scopes := ∅
  /-- The code. -/
  code : Code := #[]

namespace Compilation

/-- The words of the code. -/
def words (c : Compilation) : List Int := c.code.encode

/-- The constants of the code. -/
def constants (c : Compilation) : List Constant :=
  c.scopes.constants.toList.zipIdx.map fun (value, place) => ⟨place, value⟩

/-- The listing of the code. -/
def listing (c : Compilation) : String := BlockScript.listing c.words c.scopes.constants

end Compilation

/-- A result and what the log told on the way to it. -/
structure Logged (α : Type) where
  /-- The result. -/
  result : α
  /-- The events, in order. -/
  events : Array Event

/-- Resolves a program and generates its code. -/
def Program.compileLogged (s : Settings) (p : Program) : Logged (Except Error Compilation) :=
  let r := p.resolve s.dedupeConstants
  let scopes := r.walk.scopes
  let events := #[Event.resolving] ++ r.walk.findings.map .found
  match r.error with
  | some e => ⟨.error (.resolution e), events⟩
  | none =>
    let globals := scopes.global?.elim 0 Context.slotCount
    let events := events.push (.resolved scopes.size scopes.constants.size globals)
    let events := events.push .compiling
    match r.value.emit scopes #[] with
    | .error (e, _) => ⟨.error (.emission e), events⟩
    | .ok code => ⟨.ok ⟨scopes, code⟩, events.push (.compiled code.size code.width)⟩

/-- The code of a program. -/
def Program.compile (s : Settings) (p : Program) : Except Error Compilation :=
  (p.compileLogged s).result

/-- The program in a source. -/
def Settings.parse (s : Settings) (source : String) : Except Error Program :=
  (Program.parse s.fileName source).mapError .parsing

/-- The code of a source. -/
def Settings.compile (s : Settings) (source : String) : Except Error Compilation :=
  s.parse source >>= Program.compile s

/-- An engine: its settings, the program that it ran last, and the machine after the run. -/
structure Engine where
  /-- The settings. -/
  settings : Settings := {}
  /-- The last program. -/
  compilation : Compilation := {}
  /-- The machine after the last run. -/
  machine : Machine := {}

/-- An engine after a run, with the result of the run. -/
structure Executed where
  /-- The engine. -/
  engine : Engine
  /-- Whether the run succeeded. -/
  result : Except Error Unit

namespace Engine

/-- The engine without a program. -/
def clear (e : Engine) : Engine := { settings := e.settings }

/-- Runs the code of a program. -/
def run (e : Engine) (c : Compilation) : Logged Executed :=
  let words := c.words
  let r := e.machine.run e.settings.maxStackSize words c.constants
  let events := r.events e.settings.traceExecution words.length
  let engine := { e with compilation := c, machine := r.machine }
  match r.error with
  | some error => ⟨⟨engine, .error (.running error)⟩, events⟩
  | none => ⟨⟨engine, .ok ()⟩, events.push (.finished r.machine.globals.size)⟩

/-- Runs a program, or fails with the error that kept it from being one. -/
def executeProgram (e : Engine) (start : Event) (p : Except Error Program) : Logged Executed :=
  let e := e.clear
  match p with
  | .error error => ⟨⟨e, .error error⟩, #[start]⟩
  | .ok p =>
    let c := p.compileLogged e.settings
    match c.result with
    | .error error => ⟨⟨e, .error error⟩, #[start] ++ c.events⟩
    | .ok compilation =>
      let r := e.run compilation
      ⟨r.result, #[start] ++ c.events ++ r.events⟩

/-- Runs a source. -/
def execute (e : Engine) (source : String) : Logged Executed :=
  e.executeProgram (.executing e.settings.fileName) (e.settings.parse source)

/-- Runs a tree. -/
def executeTree (e : Engine) (p : Program) : Logged Executed :=
  e.executeProgram .executingTree (.ok p)

/-- The value of a global variable of the last program. -/
def value (e : Engine) (name : String) : Except Error Value :=
  match e.compilation.scopes.globalSlot? name with
  | none => .error (.variableNotFound name)
  | some slot => .ok (e.machine.globals.read slot)

/-- The global variables of the last program with their values, by slot. -/
def globals (e : Engine) : List (String × Value) :=
  match e.compilation.scopes.global? with
  | none => []
  | some c => c.slots.map fun (name, slot) => (name, e.machine.globals.read slot)

/-- The listing of the last program. -/
def listing (e : Engine) : String := e.compilation.listing

end Engine

/-! ## Many sources -/

/-- Runs each source on an engine of its own. -/
def Settings.runAll (s : Settings) (sources : List String) : List (Except Error Engine) :=
  sources.map fun source =>
    let r := (Engine.execute { settings := s } source).result
    r.result.map fun _ => r.engine

/-- The code of each source. -/
def Settings.compileAll (s : Settings) (sources : List String) : List (Except Error Compilation) :=
  sources.map s.compile

end BlockScript
