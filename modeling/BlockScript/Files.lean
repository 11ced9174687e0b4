/-!
# Files

Reading a file by its path can fail in a few ways, and a program may show which.  A `Directory` is a
set of files held in memory that answers a path as a directory on disk would.
-/

namespace BlockScript

/-- Why a file cannot be read. -/
inductive ReadFault where
  /-- There is no such file. -/
  | notFound
  /-- A part of the path that is not the last is a file. -/
  | notDirectory
  /-- The path is that of a directory. -/
  | isDirectory
  /-- A part of the path is longer than a name may be. -/
  | nameTooLong
  /-- The path has a NUL character in it. -/
  | nulInPath
  /-- The bytes of the file are no text. -/
  | invalidText
  /-- Any other reason. -/
  | other (reason : String)
deriving DecidableEq

/-- The fault in words. -/
def ReadFault.message : ReadFault → String
  | notFound => "No such file or directory (os error 2)"
  | notDirectory => "Not a directory (os error 20)"
  | isDirectory => "Is a directory (os error 21)"
  | nameTooLong => "File name too long (os error 36)"
  | nulInPath => "file name contained an unexpected NUL byte"
  | invalidText => "stream did not contain valid UTF-8"
  | other reason => reason

/-- The text of a file, from its bytes. -/
def textOfBytes (bytes : ByteArray) : Except ReadFault String :=
  match String.fromUTF8? bytes with
  | some s => .ok s
  | none => .error .invalidText

/-- Files in memory, each with its path from the directory. -/
structure Directory where
  /-- The paths, in parts, and the contents. -/
  files : List (List String × ByteArray)

namespace Directory

/-- Where a part of a path leads. -/
inductive Place where
  /-- A directory inside this one, or this one. -/
  | inside (path : List String)
  /-- A directory around this one. -/
  | outside
  /-- A file. -/
  | file (bytes : ByteArray)

/-- The parts of a path. -/
def parts (path : String) : List String := path.splitOn "/"

/-- A directory with files, given by their paths. -/
def ofFiles (files : List (String × ByteArray)) : Directory :=
  ⟨files.map fun (path, bytes) => ((parts path).filter (fun p => p != "" && p != "."), bytes)⟩

/-- The greatest number of bytes in the name of a file. -/
def maxName : Nat := 255

/-- Goes one part of a path further. -/
def step (d : Directory) (place : Place) (part : String) : Except ReadFault Place :=
  match place with
  | .file _ => .error .notDirectory
  | .outside =>
    if part = "" || part = "." || part = ".." then .ok .outside
    else if maxName < part.utf8ByteSize then .error .nameTooLong
    else .error .notFound
  | .inside path =>
    if maxName < part.utf8ByteSize then .error .nameTooLong
    else if part = "" || part = "." then .ok (.inside path)
    else if part = ".." then .ok (if path.isEmpty then .outside else .inside path.dropLast)
    else
      let path := path ++ [part]
      match d.files.find? (·.1 == path) with
      | some (_, bytes) => .ok (.file bytes)
      | none =>
        if d.files.any (fun f => path.isPrefixOf f.1) then .ok (.inside path)
        else .error .notFound

/-- The bytes of the file at a path.  The empty path is that of the directory itself. -/
def readBytes (d : Directory) (path : String) : Except ReadFault ByteArray := do
  if path.toList.contains '\x00' then throw .nulInPath
  let start := if path.startsWith "/" then Place.outside else .inside []
  match ← (parts path).foldlM d.step start with
  | .file bytes => return bytes
  | _ => throw .isDirectory

/-- The text of the file at a path. -/
def read (d : Directory) (path : String) : Except ReadFault String :=
  d.readBytes path >>= textOfBytes

end Directory

end BlockScript
