import Tabulate.CommandLine.Command
import Tabulate.Database.Script

/-! The program. It takes in the files that a command may look at, carries out the command on them, and
puts on the disk what has changed. -/
namespace Tabulate.CommandLine

def inputPlace (fs : FileSystem) (input : String) : String :=
  let path := fs.expandTilde input
  if Pattern.isPattern path then
    let literal := Pattern.literalParts path
    if literal.isEmpty then "." else FilePath.ofParts literal
  else path

def Arguments.places (a : Arguments) (fs : FileSystem) : List String :=
  a.config :: a.outputPath :: a.dtdPath.toList ++ a.inputs.map (inputPlace fs)

def addressOf (fs : FileSystem) (path : String) : List String :=
  (FilePath.pieces path).foldl
    (fun address piece =>
      if piece = "." then address else if piece = ".." then address.dropLast else address ++ [piece])
    (if FilePath.isAbsolute path then [] else fs.workingDirectory)

def diskPath (address : List String) : String := "/" ++ "/".intercalate address

def entryOf (bytes : List UInt8) : Entry :=
  match (Text.Utf8.decode? bytes).bind Database.ofScript? with
  | some d => .database d
  | none => .file bytes

/-- What is on the disk at an address and below it. -/
partial def onDisk (address : List String) : IO (List (List String × Entry)) := do
  let path := (← IO.currentDir) / diskPath address
  if ← path.isDir then
    let inner ← (← path.readDir).toList.mapM fun e => onDisk (address ++ [e.fileName])
    return (address, .directory) :: inner.flatten
  else if ← path.pathExists then
    return [(address, entryOf (← IO.FS.readBinFile path).toList)]
  else return []

def outer (address : List String) : List (List String) :=
  (List.range (address.length - 1)).map fun n => address.take (n + 1)

/-- What is on the disk at an address and below it, and the directories on the way there. -/
def wayAndBelow (address : List String) : IO (List (List String × Entry)) := do
  let directories ← (outer address).filterM fun a => do ((← IO.currentDir) / diskPath a).isDir
  return directories.map (·, .directory) ++ (← onDisk address)

def filesFor (words : List String) : IO FileSystem := do
  let here := FilePath.pieces (← IO.currentDir).toString
  let fs : FileSystem :=
    { entries := (outer here ++ [here]).map (·, .directory), workingDirectory := here
      home := ← IO.getEnv "HOME" }
  match Arguments.ofWords words with
  | .error _ => return fs
  | .ok a =>
    let found ← (a.places fs).mapM fun path => wayAndBelow (addressOf fs path)
    return found.flatten.foldl (fun fs e => fs.set e.1 e.2) fs

def putOnDisk (address : List String) : Entry → IO Unit
  | .directory => IO.FS.createDirAll (diskPath address)
  | .file bytes => IO.FS.writeBinFile (diskPath address) ⟨bytes.toArray⟩
  | .database d => IO.FS.writeFile (diskPath address) d.script

end Tabulate.CommandLine

open Tabulate CommandLine in
def main (words : List String) : IO UInt32 := do
  let before ← filesFor words
  let o := command words before
  for e in o.files.changesFrom before do
    putOnDisk e.1 e.2
  for w in o.warnings do
    IO.eprintln ("warning: " ++ w.message)
  IO.print o.output
  IO.eprint o.error
  return o.exitCode.toUInt32
