import Tabulate.Files.System
import Tabulate.Input.Pattern
import Tabulate.Text.Basic

/-! The files that inputs stand for, and the documents in a file. An input is a file, a directory or a
pattern. A file may hold several documents, one after another, each from its XML declaration on. -/
namespace Tabulate

inductive InputError where
  | missing (input : String)
  | noMatches (input : String)
  | badPattern (input : String)
  | unreadable (path : String) (fault : IoFault)
deriving DecidableEq, Repr

def InputError.message : InputError → String
  | missing input => "Invalid input '" ++ input ++ "': no such file or directory"
  | noMatches input => "Invalid input '" ++ input ++ "': pattern matches no files"
  | badPattern input => "Invalid input '" ++ input ++ "': invalid glob pattern"
  | unreadable path fault => "IO error during read for '" ++ path ++ "': " ++ fault.message

structure RawDocument where
  filename : String
  line : Nat
  text : String
deriving DecidableEq, Repr

namespace RawDocument

def opening : List Char := "<?xml ".toList

def pieces : List Char → List Char × List (List Char)
  | [] => ([], [])
  | c :: cs =>
    let (piece, more) := pieces cs
    if Text.startsWith opening (c :: cs) then ([], (c :: piece) :: more) else (c :: piece, more)

def numbered (filename : String) : Nat → List (List Char) → List RawDocument
  | _, [] => []
  | line, p :: ps =>
    let rest := numbered filename (line + p.count '\n') ps
    if p.all Text.isBlank then rest else ⟨filename, line, String.ofList p⟩ :: rest

def split (filename content : String) : List RawDocument :=
  let (first, more) := pieces content.toList
  numbered filename 1 (first :: more)

def read (fs : FileSystem) (path : String) : Except InputError (List RawDocument) :=
  match fs.read path with
  | .error fault => .error (.unreadable path fault)
  | .ok bytes => .ok (split ((FilePath.fileName? path).getD path) (String.ofList (Text.Utf8.decodeLossy bytes)))

end RawDocument

end Tabulate

namespace Tabulate.FileSystem

/-- All that lies below a directory, down to a depth: the names in the order of their bytes, a
directory before what is in it. Paths begin with the directory's path. -/
def walkBelow (fs : FileSystem) : (depth : Nat) → (address : List String) → (path : String) →
    List (String × Entry)
  | 0, _, _ => []
  | depth + 1, address, path =>
    (fs.names address).flatMap fun name =>
      let inner := FilePath.join path name
      match fs.at? (address ++ [name]) with
      | some .directory => (inner, .directory) :: fs.walkBelow depth (address ++ [name]) inner
      | some e => [(inner, e)]
      | none => []

/-- A depth that no directory reaches. -/
def unlimited (fs : FileSystem) : Nat := fs.entries.length + 1

def walk (fs : FileSystem) (depth : Nat) (path : String) : List (String × Entry) :=
  match fs.locate path with
  | .ok address =>
    match fs.at? address with
    | some .directory => fs.walkBelow depth address path
    | _ => []
  | .error _ => []

def xmlFilesIn (fs : FileSystem) (path : String) (recurse : Bool) : List String :=
  (fs.walk (if recurse then fs.unlimited else 1) path).filterMap fun e =>
    match e.2 with
    | .directory => none
    | _ => if FilePath.hasExtension "xml" e.1 then some e.1 else none

def expandTilde (fs : FileSystem) (input : String) : String :=
  match input.toList, fs.home with
  | ['~'], some home => home
  | '~' :: '/' :: rest, some home => FilePath.join home (String.ofList rest)
  | _, _ => input

def matching (fs : FileSystem) (pattern : String) (ps : List Pattern) : List String :=
  let literal := Pattern.literalParts pattern
  -- without two stars in a row each part of the pattern goes one directory down
  let depth :=
    if Text.contains ['*', '*'] pattern.toList then fs.unlimited
    else (FilePath.parts pattern).length - literal.length
  let found :=
    if literal.isEmpty then (fs.walk depth ".").map fun e => FilePath.dropHere e.1
    else (fs.walk depth (FilePath.ofParts literal)).map (·.1)
  found.filter (Pattern.accepts ps)

def expandInput (fs : FileSystem) (input : String) (recurse : Bool) : Except InputError (List String) :=
  let path := fs.expandTilde input
  if fs.isFile path then .ok [path]
  else if fs.isDirectory path then .ok (fs.xmlFilesIn path recurse)
  else if !Pattern.isPattern path then .error (.missing input)
  else match Pattern.ofText? path with
    | none => .error (.badPattern input)
    | some ps =>
      let files := (fs.matching path ps).flatMap fun found =>
        if fs.isFile found then [found]
        else if fs.isDirectory found then fs.xmlFilesIn found recurse
        else []
      if files.isEmpty then .error (.noMatches input) else .ok files

def addPaths : List String → List String → List String
  | paths, [] => paths
  | paths, p :: ps => addPaths (if paths.any (FilePath.same p) then paths else paths ++ [p]) ps

def discover (fs : FileSystem) (inputs : List String) (recurse : Bool) :
    Except InputError (List String) :=
  (inputs.mapM fun input => fs.expandInput input recurse).map fun found => addPaths [] found.flatten

end Tabulate.FileSystem
