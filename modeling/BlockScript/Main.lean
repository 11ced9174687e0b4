import BlockScript.CommandLine

/-!
# The program

The outer layer: it gets the arguments, the environment and the files, and prints the outcome.
-/

namespace BlockScript.CommandLine

/-- Why the system could not read a file. -/
def readFaultOf (e : IO.Error) : ReadFault :=
  match e with
  | .noFileOrDirectory .. => .notFound
  | .inappropriateType _ code _ =>
    if code == 20 then .notDirectory else .isDirectory
  | e => .other (toString e)

/-- Reads a file from disk. -/
def readFromDisk (path : String) : IO (Except ReadFault String) := do
  try
    return textOfBytes (← IO.FS.readBinFile path)
  catch e =>
    return .error (readFaultOf e)

end BlockScript.CommandLine

open BlockScript.CommandLine in
/-- Runs the command line. -/
def main (args : List String) : IO UInt32 := do
  let environment ← IO.getEnv "IGNITION_CONFIG"
  let files ← (paths args environment).mapM fun path => do
    return (path, ← readFromDisk path)
  let outcome := run args environment fun path => (files.lookup path).getD (.error .notFound)
  IO.print outcome.out
  IO.eprint outcome.err
  return outcome.exitCode.toUInt32
