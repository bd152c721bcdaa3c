/-! File paths as text. A path has parts between slashes; empty parts and single dots count for
nothing, but for a dot in front of a relative path. -/
namespace Tabulate.FilePath

inductive Part where
  | root
  | here
  | up
  | name (s : String)
deriving DecidableEq, Repr

def Part.text : Part → String
  | root => "/"
  | here => "."
  | up => ".."
  | name s => s

def isAbsolute (path : String) : Bool := path.toList.head? = some '/'

def pieces (path : String) : List String :=
  ((path.toList.splitOn '/').filter fun p => !p.isEmpty).map String.ofList

def partOf? (piece : String) : Option Part :=
  if piece = "." then none else if piece = ".." then some .up else some (.name piece)

def parts (path : String) : List Part :=
  let inner := (pieces path).filterMap partOf?
  if isAbsolute path then .root :: inner
  else if (path.toList.splitOn '/').head? = some ['.'] then .here :: inner
  else inner

def ofParts : List Part → String
  | .root :: ps => "/" ++ "/".intercalate (ps.map Part.text)
  | ps => "/".intercalate (ps.map Part.text)

def join (directory name : String) : String :=
  if isAbsolute name then name
  else if directory.isEmpty || directory.toList.getLast? = some '/' then directory ++ name
  else directory ++ "/" ++ name

def same (a b : String) : Bool := parts a = parts b

def fileName? (path : String) : Option String :=
  match (parts path).getLast? with
  | some (.name s) => some s
  | _ => none

def extension? (path : String) : Option String := do
  let cs := (← fileName? path).toList
  let reversed := cs.reverse
  let ext := reversed.takeWhile (· != '.')
  match reversed.dropWhile (· != '.') with
  | _ :: _ :: _ => some (String.ofList ext.reverse)
  | _ => none

def hasExtension (ext path : String) : Bool := (extension? path).any fun e => e.map Char.toLower = ext

def dropHere (path : String) : String := ofParts ((parts path).dropWhile (· = .here))

def parent? (path : String) : Option String :=
  match parts path with
  | [] => none
  | [.root] => none
  | ps => some (ofParts ps.dropLast)

end Tabulate.FilePath
