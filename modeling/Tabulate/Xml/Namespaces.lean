import Tabulate.Text.Basic
import Tabulate.Xml.Tree

/-! Prefixes and the URIs they stand for, as a document element declares them. The default
namespace goes by an alias of its own, so that a path can name its elements. -/
namespace Tabulate.Xml

structure Namespaces where
  entries : List (String × String) := []
deriving DecidableEq, Repr

namespace Namespaces

def defaultAlias : String := "_"

def empty : Namespaces := {}

def isEmpty (m : Namespaces) : Bool := m.entries.isEmpty

def insert (m : Namespaces) (space uri : String) : Namespaces := ⟨(space, uri) :: m.entries⟩

/-- The URI bound last to a prefix; `xml` is bound without being declared. -/
def uri? (m : Namespaces) (space : String) : Option String :=
  match m.entries.find? (·.1 = space) with
  | some (_, uri) => some uri
  | none => if space = "xml" then some xmlUri else none

def aliasOf? (m : Namespaces) (uri : String) : Option String :=
  (m.entries.find? (·.2 = uri)).map (·.1)

def default? (m : Namespaces) : Option String := m.uri? defaultAlias

def ofBindings (bindings : List Binding) : Namespaces :=
  bindings.foldl (fun m b => if b.alias? = some "xml" then m
    else m.insert (b.alias?.getD defaultAlias) b.uri) empty

def ofDocument (d : Document) : Namespaces :=
  ofBindings ((d.elementNode?.map Node.bindings).getD [])

/-- Whether a step of a path is a bare element name. -/
def isBareStep (step : List Char) : Bool :=
  match step with
  | [] => false
  | c :: _ =>
    if ['@', '[', '.', '*'].contains c then false
    else
      let name := step.takeWhile (· != '[')
      !name.contains ':' && !(['(', ')'].isSuffixOf name)

/-- Give every step between slashes that is a bare element name the alias of the default namespace,
if there is one. -/
def qualify (m : Namespaces) (path : String) : String :=
  match m.default? with
  | none => path
  | some _ =>
    let steps := path.toList.splitOn '/'
    let named := steps.map fun s => if isBareStep s then defaultAlias.toList ++ ':' :: s else s
    String.ofList (['/'].intercalate named)

/-- An element's name as paths write it. A namespace without a prefix is shown in braces, which no
path can name. -/
def tag (m : Namespaces) (n : Name) : String :=
  match n.uri with
  | none => n.localPart
  | some uri =>
    match m.aliasOf? uri with
    | some space => space ++ ":" ++ n.localPart
    | none => n.expanded

end Namespaces

end Tabulate.Xml
