import BlockScript.Location
import BlockScript.Toml.Document

/-!
# Settings

The settings of an engine, and their form as a document.  Every setting has a default, and a
document names only those that it changes; keys that are no settings mean nothing.
-/

namespace BlockScript

/-- The settings of an engine. -/
structure Settings where
  /-- The name of the source in locations. -/
  fileName : String := Location.anonymous
  /-- Whether equal constants share one place in the pool. -/
  dedupeConstants : Bool := false
  /-- The greatest number of operands on the stack. -/
  maxStackSize : Nat := 1024
  /-- Whether every instruction that is run is logged. -/
  traceExecution : Bool := false
deriving DecidableEq

/-- Why a document is no settings. -/
inductive SettingsFault where
  /-- It is no document. -/
  | malformed
  /-- The setting has a value of another kind, or out of its range. -/
  | badValue (key : String)
deriving DecidableEq

/-- The fault in words. -/
def SettingsFault.message : SettingsFault → String
  | malformed => "the document cannot be read"
  | badValue key => s!"the value of '{key}' is not allowed"

namespace Settings

/-- The value of one setting, or its default. -/
def field {α : Type} (es : Toml.Entries) (key : String) (default : α)
    (read? : Toml.Node → Option α) : Except SettingsFault α :=
  match es.get? key with
  | none => .ok default
  | some v => (read? v).elim (.error (.badValue key)) .ok

/-- A string as a setting. -/
def string? : Toml.Node → Option String
  | .string s => some s
  | _ => none

/-- A truth value as a setting. -/
def boolean? : Toml.Node → Option Bool
  | .boolean b => some b
  | _ => none

/-- A number that is not negative as a setting. -/
def size? : Toml.Node → Option Nat
  | .integer n => if 0 ≤ n then some n.toNat else none
  | _ => none

/-- The settings in a document. -/
def ofEntries (es : Toml.Entries) : Except SettingsFault Settings := do
  let base : Settings := {}
  let fileName ← field es "file_name" base.fileName string?
  let dedupeConstants ← field es "dedupe_constants" base.dedupeConstants boolean?
  let maxStackSize ← field es "max_stack_size" base.maxStackSize size?
  let traceExecution ← field es "trace_execution" base.traceExecution boolean?
  return ⟨fileName, dedupeConstants, maxStackSize, traceExecution⟩

/-- Reads the text of a document. -/
def ofToml (text : String) : Except SettingsFault Settings :=
  match Toml.parse? text with
  | none => .error .malformed
  | some es => ofEntries es

/--
The settings as the text of a document, one to a line.  A size that is no integer of the format
makes the whole text empty.
-/
def toToml (s : Settings) : String :=
  if s.maxStackSize ≤ Toml.maxInteger then
    "file_name = " ++ Toml.writeString s.fileName ++ "\n" ++
    "dedupe_constants = " ++ toString s.dedupeConstants ++ "\n" ++
    "max_stack_size = " ++ toString s.maxStackSize ++ "\n" ++
    "trace_execution = " ++ toString s.traceExecution ++ "\n"
  else ""

end Settings

end BlockScript
