import BlockScript.Code.Emit
import BlockScript.Files
import BlockScript.Machine.Run
import BlockScript.Settings
import BlockScript.Tree.Parse
import BlockScript.Tree.Resolve

/-!
# Errors

Everything that can go wrong between a source text and the value of a variable.
-/

namespace BlockScript

/-- What went wrong, by the step in which it did. -/
inductive Error where
  /-- The source is no program. -/
  | parsing (e : SyntaxError)
  /-- An identifier means nothing. -/
  | resolution (e : Undeclared)
  /-- The program cannot become code. -/
  | emission (e : EmitError)
  /-- The machine stopped. -/
  | running (e : RunError)
  /-- There is no such global variable. -/
  | variableNotFound (name : String)
  /-- A file cannot be read. -/
  | reading (e : ReadFault)
  /-- A document is no settings. -/
  | settings (e : SettingsFault)
deriving DecidableEq

/-- The error in words. -/
def Error.message : Error → String
  | parsing e => e.message
  | resolution e => e.message
  | emission e => e.message
  | running e => e.message
  | variableNotFound name => s!"variable not found: {name}"
  | reading e => s!"IO error: {e.message}"
  | settings e => s!"Configuration error: {e.message}"

/-- Settings from the text of a file. -/
def Settings.load (text : Except ReadFault String) : Except Error Settings :=
  match text with
  | .error e => .error (.reading e)
  | .ok s => (Settings.ofToml s).mapError .settings

end BlockScript
