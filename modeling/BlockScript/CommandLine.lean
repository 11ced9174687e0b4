import BlockScript.Engine

/-!
# The command line

The program runs a file, or the code behind `-e`, and prints its global variables.  The arguments
are read from left to right, and the first that cannot be understood ends the reading.  What the
program prints and its exit code are a function of the arguments, the environment and the files
that it reads; the files are given as a function from paths to texts.
-/

namespace BlockScript.CommandLine

/-! ## Arguments -/

/-- What the arguments ask for. -/
structure Invocation where
  /-- The file to run. -/
  file : Option String := none
  /-- The code to run instead. -/
  code : Option String := none
  /-- The variables to print, if not all. -/
  names : List String := []
  /-- Whether to print the listing. -/
  disassemble : Bool := false
  /-- The file with the settings. -/
  config : Option String := none

/-- The arguments, understood. -/
inductive Request where
  | run (i : Invocation)
  | help
  | version

/-- Why the arguments cannot be understood. -/
inductive UsageError where
  | unknownOption (arg : String)
  | missingValue (option : String)
  | unexpectedValue (option : String)
  | emptyValue (option : String)
  | repeated (option : String)
  | unexpectedArgument (arg : String)
  | noInput
  | twoInputs

/-- The error in words. -/
def UsageError.message : UsageError → String
  | unknownOption arg => s!"unknown option '{arg}'"
  | missingValue option => s!"a value is required for '{option}'"
  | unexpectedValue option => s!"no value is allowed for '{option}'"
  | emptyValue option => s!"an empty value is not allowed for '{option}'"
  | repeated option => s!"'{option}' cannot be used more than once"
  | unexpectedArgument arg => s!"unexpected argument '{arg}'"
  | noInput => "a file or code to run is required"
  | twoInputs => "a file and code to run cannot be used together"

/-- An option that takes a value. -/
inductive Setting where
  | eval
  | print
  | config

/-- The option as it is written. -/
def Setting.name : Setting → String
  | eval => "--eval"
  | print => "--print"
  | config => "--config"

/-- The invocation with the value of an option. -/
def Invocation.set (i : Invocation) (o : Setting) (value : String) :
    Except UsageError Invocation :=
  match o with
  | .eval =>
    if i.code.isSome then .error (.repeated o.name) else .ok { i with code := some value }
  | .print => .ok { i with names := i.names ++ [value] }
  | .config =>
    if i.config.isSome then .error (.repeated o.name)
    else if value.isEmpty then .error (.emptyValue o.name)
    else .ok { i with config := some value }

/-- The invocation with a file. -/
def Invocation.setFile (i : Invocation) (path : String) : Except UsageError Invocation :=
  if i.file.isSome then .error (.unexpectedArgument path)
  else if path.isEmpty then .error (.emptyValue "FILE")
  else .ok { i with file := some path }

/-- What one argument is, by its form. -/
inductive Argument where
  /-- Two dashes alone: only files follow. -/
  | escape
  /-- An option with a value, attached or in the next argument. -/
  | valued (o : Setting) (attached : Option String)
  | disassemble
  | help
  | version
  | file (path : String)
  | bad (e : UsageError)

/-- An option of one letter, with what is attached to it. -/
def Argument.ofShort (arg : String) (letter : Char) (attached : List Char) : Argument :=
  let value : Option String :=
    match attached with
    | [] => none
    | '=' :: cs => some (String.ofList cs)
    | cs => some (String.ofList cs)
  match letter with
  | 'e' => .valued .eval value
  | 'p' => .valued .print value
  | 'h' => .help
  | 'V' => .version
  | _ => .bad (.unknownOption arg)

/-- An option of several letters, with what is attached to it. -/
def Argument.ofLong (arg : String) (name : List Char) (attached : Option (List Char)) : Argument :=
  let flag (a : Argument) : Argument :=
    if attached.isSome then .bad (.unexpectedValue arg) else a
  let value := attached.map String.ofList
  match String.ofList name with
  | "eval" => .valued .eval value
  | "print" => .valued .print value
  | "config" => .valued .config value
  | "disassemble" => flag .disassemble
  | "help" => flag .help
  | "version" => flag .version
  | _ => .bad (.unknownOption arg)

/-- Sorts an argument. -/
def Argument.ofString (arg : String) : Argument :=
  match arg.toList with
  | ['-', '-'] => .escape
  | '-' :: '-' :: cs =>
    match cs.dropWhile (· != '=') with
    | [] => .ofLong arg cs none
    | _ :: value => .ofLong arg (cs.takeWhile (· != '=')) (some value)
  | '-' :: c :: cs => .ofShort arg c cs
  | _ => .file arg

/-- Whether an argument may be the value of the option before it. -/
def mayBeValue (arg : String) : Bool :=
  match Argument.ofString arg with
  | .file _ => true
  | _ => false

/-- Reads arguments that are all files. -/
def readFiles (i : Invocation) (args : List String) : Except UsageError Invocation :=
  args.foldlM Invocation.setFile i

/-- Reads arguments. -/
def read (i : Invocation) : List String → Except UsageError Request
  | [] => .ok (.run i)
  | arg :: args =>
    match Argument.ofString arg with
    | .escape => (readFiles i args).map .run
    | .valued o (some value) => i.set o value >>= (read · args)
    | .valued o none =>
      match args with
      | [] => .error (.missingValue o.name)
      | value :: args =>
        if mayBeValue value then i.set o value >>= (read · args)
        else .error (.missingValue o.name)
    | .disassemble =>
      if i.disassemble then .error (.repeated arg) else read { i with disassemble := true } args
    | .help => .ok .help
    | .version => .ok .version
    | .file path => i.setFile path >>= (read · args)
    | .bad e => .error e

/--
Checks that there is one input, and takes the settings file of the environment if none is given.
-/
def Invocation.complete (i : Invocation) (environment : Option String) :
    Except UsageError Invocation := do
  let i ← match i.config, environment with
    | none, some path => i.set .config path
    | _, _ => pure i
  match i.file, i.code with
  | none, none => throw .noInput
  | some _, some _ => throw .twoInputs
  | _, _ => return i

/-! ## Running -/

/-- What a run of the program shows. -/
structure Outcome where
  /-- The exit code. -/
  exitCode : Nat
  /-- What it prints. -/
  out : String := ""
  /-- What it prints as errors. -/
  err : String := ""

/-- An error as the program prints it, in colour. -/
def errorLine (message : String) : String :=
  let esc := "\x1b["
  s!"{esc}1m{esc}31mError{esc}39m{esc}0m: {esc}31m{message}{esc}39m\n"

/-- The output so far, with the error that ended it if one did. -/
structure Printed where
  /-- What was printed. -/
  out : String
  /-- The error. -/
  error : Option Error := none

/-- The lines for some variables, up to the first that does not exist. -/
def printNames (e : Engine) (out : String) : List String → Printed
  | [] => ⟨out, none⟩
  | name :: names =>
    match e.value name with
    | .error error => ⟨out, some error⟩
    | .ok v => printNames e (out ++ s!"{name} = {v.text}\n") names

/-- The lines for all variables. -/
def printAll (e : Engine) (out : String) : Printed :=
  ⟨e.globals.foldl (fun out (name, v) => out ++ s!"{name} = {v.text}\n") out, none⟩

/-- The settings and the source that an invocation asks for. -/
def Invocation.load (i : Invocation) (readFile : String → Except ReadFault String) :
    Except Error (Settings × String) := do
  let settings ← match i.config with
    | some path => Settings.load (readFile path)
    | none => pure {}
  match i.code, i.file with
  | some code, _ => return (settings, code)
  | none, some path =>
    let source ← (readFile path).mapError .reading
    return ({ settings with fileName := path }, source)
  | none, none => return (settings, "")

/-- Runs what an invocation asks for. -/
def Invocation.print (i : Invocation) (readFile : String → Except ReadFault String) : Printed :=
  match i.load readFile with
  | .error error => ⟨"", some error⟩
  | .ok (settings, source) =>
    let r := (Engine.execute { settings := settings } source).result
    let out := if i.disassemble then r.engine.listing else ""
    match r.result with
    | .error error => ⟨out, some error⟩
    | .ok () =>
      if i.names.isEmpty then printAll r.engine out else printNames r.engine out i.names

/-- The name and version of the program. -/
def versionLine : String := "ignition 0.1.0\n"

/-- How the program is used. -/
def usage : String :=
  "Usage: ignition [OPTIONS] <FILE|--eval <CODE>>\n\n" ++
  "Arguments:\n" ++
  "  [FILE]  Script file to run\n\n" ++
  "Options:\n" ++
  "  -e, --eval <CODE>    Run CODE instead of a file\n" ++
  "  -p, --print <NAME>   Print only this global (repeatable)\n" ++
  "      --disassemble    Print the bytecode listing before the results\n" ++
  "      --config <PATH>  Load engine options from a TOML file [env: IGNITION_CONFIG=]\n" ++
  "  -h, --help           Print help\n" ++
  "  -V, --version        Print version\n"

/-- The whole program: arguments, the settings file of the environment, and files. -/
def run (args : List String) (environment : Option String)
    (readFile : String → Except ReadFault String) : Outcome :=
  let refuse (e : UsageError) : Outcome := ⟨2, "", s!"error: {e.message}\n\n{usage}"⟩
  match read {} args with
  | .error e => refuse e
  | .ok .help => ⟨0, usage, ""⟩
  | .ok .version => ⟨0, versionLine, ""⟩
  | .ok (.run i) =>
    match i.complete environment with
    | .error e => refuse e
    | .ok i =>
      let p := i.print readFile
      match p.error with
      | none => ⟨0, p.out, ""⟩
      | some e => ⟨1, p.out, errorLine e.message⟩

/-- The files that a run may read. -/
def paths (args : List String) (environment : Option String) : List String :=
  match read {} args with
  | .ok (.run i) => i.file.toList ++ i.config.toList ++ environment.toList
  | _ => []

end BlockScript.CommandLine
