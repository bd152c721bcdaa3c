import Tabulate.Database.Basic
import Tabulate.Files.Path
import Tabulate.Text.Utf8

/-! A file system as a value: entries by the names that lead to them from the root. -/
namespace Tabulate

inductive Entry where
  | file (bytes : List UInt8)
  | directory
  | database (content : Database)
deriving DecidableEq, Repr

inductive IoFault where
  | notFound
  | exists
  | notDirectory
  | isDirectory
  | nameTooLong
  | nulInName
  | notUtf8
deriving DecidableEq, Repr

def IoFault.message : IoFault → String
  | notFound => "No such file or directory (os error 2)"
  | .exists => "File exists (os error 17)"
  | notDirectory => "Not a directory (os error 20)"
  | isDirectory => "Is a directory (os error 21)"
  | nameTooLong => "File name too long (os error 36)"
  | nulInName => "file name contained an unexpected NUL byte"
  | notUtf8 => "stream did not contain valid UTF-8"

structure FileSystem where
  entries : List (List String × Entry)
  workingDirectory : List String := []
  home : Option String := none
deriving Repr

namespace FileSystem

def at? (fs : FileSystem) (address : List String) : Option Entry :=
  if address.isEmpty then some .directory else fs.entries.lookup address

def set (fs : FileSystem) (address : List String) (e : Entry) : FileSystem :=
  if (fs.entries.lookup address).isSome then
    { fs with entries := fs.entries.map fun x => if x.1 = address then (address, e) else x }
  else { fs with entries := fs.entries ++ [(address, e)] }

def changesFrom (fs before : FileSystem) : List (List String × Entry) :=
  fs.entries.filter fun e => before.entries.lookup e.1 != some e.2

def descend (fs : FileSystem) (address : List String) (piece : String) :
    Except IoFault (List String) :=
  match fs.at? address with
  | none => .error .notFound
  | some .directory =>
    if piece = "." then .ok address
    else if piece = ".." then .ok address.dropLast
    else if piece.utf8ByteSize > 255 then .error .nameTooLong
    else .ok (address ++ [piece])
  | some _ => .error .notDirectory

def locate (fs : FileSystem) (path : String) : Except IoFault (List String) := do
  if path.toList.contains (Char.ofNat 0) then throw .nulInName
  if path.isEmpty then throw .notFound
  let start := if FilePath.isAbsolute path then [] else fs.workingDirectory
  let address ← (FilePath.pieces path).foldlM fs.descend start
  -- a path with a slash behind it asks for a directory
  if path.toList.getLast? = some '/' then
    match fs.at? address with
    | some (.file _) => throw .notDirectory
    | some (.database _) => throw .notDirectory
    | _ => return address
  else return address

def entry (fs : FileSystem) (path : String) : Except IoFault Entry := do
  match fs.at? (← fs.locate path) with
  | some e => return e
  | none => throw .notFound

def exists? (fs : FileSystem) (path : String) : Bool := (fs.entry path).isOk

def isFile (fs : FileSystem) (path : String) : Bool :=
  match fs.entry path with
  | .ok (.file _) => true
  | .ok (.database _) => true
  | _ => false

def isDirectory (fs : FileSystem) (path : String) : Bool :=
  match fs.entry path with
  | .ok .directory => true
  | _ => false

/-- What the file of a database begins with. Read as bytes, a database is nothing else. -/
def databaseBytes : List UInt8 := "SQLite format 3\x00".toUTF8.toList

def read (fs : FileSystem) (path : String) : Except IoFault (List UInt8) := do
  match ← fs.entry path with
  | .file bytes => return bytes
  | .database _ => return databaseBytes
  | .directory => throw .isDirectory

def readText (fs : FileSystem) (path : String) : Except IoFault String := do
  match Text.Utf8.decode? (← fs.read path) with
  | some cs => return String.ofList cs
  | none => throw .notUtf8

def makeDirectory (fs : FileSystem) (path : String) : Except IoFault FileSystem := do
  let address ← fs.locate path
  match fs.at? address with
  | some _ => throw .exists
  | none => return fs.set address .directory

/-- Make a directory and those it lies in. What was made before a failure stays. -/
def makeDirectories (fs : FileSystem) (path : String) : FileSystem × Except IoFault Unit :=
  go (path.length + 1) fs path
where
  go : Nat → FileSystem → String → FileSystem × Except IoFault Unit
    | 0, fs, _ => (fs, .error .notFound)
    | fuel + 1, fs, path =>
      if path.isEmpty then (fs, .ok ())
      else match fs.makeDirectory path with
        | .ok made => (made, .ok ())
        | .error .notFound =>
          match FilePath.parent? path with
          | none => (fs, .error .notFound)
          | some parent =>
            match go fuel fs parent with
            | (fs, .error fault) => (fs, .error fault)
            | (fs, .ok ()) =>
              match fs.makeDirectory path with
              | .ok made => (made, .ok ())
              | .error fault => (fs, if fs.isDirectory path then .ok () else .error fault)
        | .error fault => (fs, if fs.isDirectory path then .ok () else .error fault)

def append (fs : FileSystem) (path : String) (bytes : List UInt8) : Except IoFault FileSystem := do
  let address ← fs.locate path
  match fs.at? address with
  | some (.file before) => return fs.set address (.file (before ++ bytes))
  | some .directory => throw .isDirectory
  | some (.database _) => return fs.set address (.file (databaseBytes ++ bytes))
  | none =>
    if path.toList.getLast? = some '/' then throw .isDirectory
    else return fs.set address (.file bytes)

def names (fs : FileSystem) (address : List String) : List String :=
  (fs.entries.filterMap fun e =>
    match e.1.getLast? with
    | some name => if e.1.dropLast = address then some name else none
    | none => none).mergeSort fun a b => a ≤ b

end FileSystem

end Tabulate
