import Tabulate.Files.System
import Tabulate.Text.Basic
import Tabulate.Xml.Builder
import Tabulate.Xml.Token
import Tabulate.Xml.Namespaces

/-! From the raw text of a document to its tree. Document type declarations are looked for in the text before
it is read as XML. -/
namespace Tabulate.Xml

open Text (after? isBlank)

inductive Error where
  | malformed
  | otherElement (element declared : String)
  | noDoctype (element : String)
  | malformedDoctype (name : String)
  | wrongDoctype (declaration : String)
  | missingDoctype
  | dtd (path : String) (fault : IoFault)
deriving DecidableEq, Repr

def Error.message : Error → String
  | malformed => "XML parse error"
  | otherElement element declared =>
    "XML parse error: document element '" ++ element ++ "' does not match DOCTYPE '" ++ declared ++ "'"
  | noDoctype element =>
    "XML parse error: document element '" ++ element ++ "' has no DOCTYPE to validate against"
  | malformedDoctype name => "XML parse error: malformed DOCTYPE declaration for '" ++ name ++ "'"
  | wrongDoctype declaration => "Unexpected DOCTYPE: " ++ declaration
  | missingDoctype => "Document has no DOCTYPE"
  | dtd path fault => "Unable to load DTD '" ++ path ++ "': " ++ fault.message

def keyword : List Char := "<!DOCTYPE".toList

def blanks? : List Char → Option (List Char)
  | c :: cs => if isBlank c then some (cs.dropWhile isBlank) else none
  | [] => none

def endsDeclaredName (c : Char) : Bool := isBlank c || c = '[' || c = '>'

def declaredName? (cs : List Char) : Option (List Char × List Char) := do
  let cs ← blanks? (← after? keyword cs)
  let name := cs.takeWhile fun c => !endsDeclaredName c
  if name.isEmpty then none else some (name, cs.drop name.length)

/-- The first answer that `f` gives at some place of a text, with the text before that place. -/
def firstFound? (f : List Char → Option α) : List Char → Option (List Char × α)
  | [] => (f []).map ([], ·)
  | c :: cs =>
    match f (c :: cs) with
    | some a => some ([], a)
    | none => (firstFound? f cs).map fun r => (c :: r.1, r.2)

def doctypeName? (text : String) : Option String :=
  (firstFound? declaredName? text.toList).map fun r => String.ofList r.2.1

/-- The first line that begins with a document type declaration must declare `expected`. -/
def checkDoctype (text expected : String) : Except Error Unit :=
  match (Text.lines text.toList).find? (Text.startsWith "<!DOCTYPE ".toList) with
  | none => .error .missingDoctype
  | some line =>
    if (declaredName? line).any fun r => String.ofList r.1 = expected then .ok ()
    else .error (.wrongDoctype (String.ofList (Text.trimEnd line)))

def literal? : List Char → Option (List Char × List Char)
  | q :: cs =>
    if q = '"' ∨ q = '\'' then
      match cs.dropWhile (· != q) with
      | _ :: rest => some (cs.takeWhile (· != q), rest)
      | [] => none
    else none
  | [] => none

structure ExternalDoctype where
  name : List Char
  systemId : List Char
  rest : List Char

def externalDoctype? (cs : List Char) : Option ExternalDoctype := do
  let (name, cs) ← declaredName? cs
  let cs ← blanks? cs
  let (systemId, rest) ← match after? "SYSTEM".toList cs, after? "PUBLIC".toList cs with
    | some cs, _ => literal? (← blanks? cs)
    | none, some cs => do
      let (_, cs) ← literal? (← blanks? cs)
      literal? (← blanks? cs)
    | none, none => none
  some ⟨name, systemId, rest.dropWhile isBlank⟩

/-- The file a system identifier names: an identifier that begins with the directory's own path
stands for itself. -/
def dtdFile (directory systemId : String) : String :=
  if Text.startsWith directory.toList systemId.toList then systemId
  else FilePath.join directory systemId

def dropTextDeclaration (cs : List Char) : List Char :=
  match after? "<?xml".toList (cs.dropWhile isBlank) with
  | none => cs
  | some inner =>
    match inner.takeWhile (· != '>'), inner.dropWhile (· != '>') with
    | head, _ :: rest => if head.getLast? = some '?' then rest else cs
    | _, [] => cs

/-- Put the declarations of the file that the document type refers to in front of its own. A
document that refers to none is left as it is. -/
def inlineDtd (fs : FileSystem) (directory text : String) : Except Error String :=
  match firstFound? externalDoctype? text.toList with
  | none => .ok text
  | some (before, found) => do
    let file := dtdFile directory (String.ofList found.systemId)
    let declarations ← match fs.readText file with
      | .ok s => .ok (dropTextDeclaration s.toList)
      | .error fault => .error (.dtd file fault)
    let opened := before ++ "<!DOCTYPE ".toList ++ found.name ++ " [\n".toList ++ declarations ++ ['\n']
    match found.rest with
    | '[' :: rest => .ok (String.ofList (opened ++ rest))
    | '>' :: rest => .ok (String.ofList (opened ++ "]>".toList ++ rest))
    | _ => .error (.malformedDoctype (String.ofList found.name))

structure ParseOptions where
  dtdPath : Option String := none
  validate : Bool := false
deriving Repr

def ParseOptions.prepare (o : ParseOptions) (fs : FileSystem) (raw : String) : Except Error String :=
  let trimmed := String.ofList (Text.trimStart raw.toList)
  match o.dtdPath with
  | some directory => inlineDtd fs directory trimmed
  | none => .ok trimmed

def afterLastColon (name : String) : String :=
  String.ofList (name.toList.reverse.takeWhile (· != ':')).reverse

def Document.elementName (d : Document) : String :=
  match d.elementNode? with
  | some (.element n ..) => n.localPart
  | _ => ""

def Document.parse (text : String) (o : ParseOptions) : Except Error Document :=
  match Document.read? text with
  | none => .error .malformed
  | some d =>
    if !o.validate then .ok d
    else match doctypeName? text with
      | none => .error (.noDoctype d.elementName)
      | some declared =>
        if afterLastColon declared = d.elementName then .ok d
        else .error (.otherElement d.elementName declared)

end Tabulate.Xml
