import Tabulate.Xml.Prolog
import Tabulate.Xml.Reference
import Tabulate.Xml.Tree

/-! The tree that tokens build up. Entities are expanded where they are referred to: their value is
content of its own, put in the place of the reference, and adjacent texts become one. -/
namespace Tabulate.Xml

structure Unclosed where
  written : Written
  name : Name
  bindings : List Binding
  scope : List Binding
  attributes : List Attribute
  children : List Node

/-- A tree under construction. `tag`, `bindings` and `attributes` belong to a tag whose end has not
been read, `afterText` says that the newest node is a text that still grows, and `references`
counts the references met inside the entity that is being expanded. -/
structure Builder where
  entities : List (List Char × List Char) := []
  unclosed : List Unclosed := []
  nodes : List Node := []
  tag : Option Written := none
  bindings : List Binding := []
  attributes : List (Written × String) := []
  afterText : Bool := false
  references : Nat := 0

def maxEntityDepth : Nat := 10

/-- How many references may occur inside one entity, at all depths together. -/
def maxReferences : Nat := 255

namespace Builder

def entity? (b : Builder) (name : List Char) : Option (List Char) := b.entities.lookup name

def scope (b : Builder) : List Binding := (b.unclosed.head?.map Unclosed.scope).getD []

def push (b : Builder) (n : Node) : Builder :=
  match b.unclosed with
  | [] => { b with nodes := n :: b.nodes }
  | u :: us => { b with unclosed := { u with children := n :: u.children } :: us }

def replaceNewest (b : Builder) (n : Node) : Builder :=
  match b.unclosed with
  | [] => { b with nodes := n :: b.nodes.drop 1 }
  | u :: us => { b with unclosed := { u with children := n :: u.children.drop 1 } :: us }

def newest? (b : Builder) : Option Node :=
  match b.unclosed with
  | [] => b.nodes.head?
  | u :: _ => u.children.head?

def pushText (b : Builder) (cs : List Char) : Builder :=
  match b.afterText, b.newest? with
  | true, some (.text before) => b.replaceNewest (.text (before ++ String.ofList cs))
  | _, _ => { b.push (.text (String.ofList cs)) with afterText := true }

def countReference? (inside : Bool) (b : Builder) : Option Builder :=
  if !inside then some b
  else if b.references < maxReferences then some { b with references := b.references + 1 }
  else none

end Builder

/-- Add a character of running text to a buffer that is kept in reverse. A line ends in a line feed,
also where it is written as a carriage return with or without a line feed behind it. -/
def bufferText (c : Char) (atEnd : Bool) : List Char → List Char
  | '\r' :: before =>
    if atEnd && c = '\r' then '\n' :: '\n' :: before
    else if c != '\n' then c :: '\n' :: before
    else '\n' :: before
  | before => if atEnd && c = '\r' then '\n' :: before else c :: before

def lineFeeds : List Char → List Char → List Char
  | buffer, [] => buffer.reverse
  | buffer, c :: cs => lineFeeds (bufferText c cs.isEmpty buffer) cs

/-- Feed the pieces of a text. `expand` builds the content of an entity; a character that is
referred to outside of entities is kept as it is, and so is the character after it. -/
def feedText (inside : Bool) (expand : List Char → Builder → Option Builder) :
    List Piece → (buffer : List Char) → (verbatim : Bool) → Builder → Option Builder
  | [], buffer, _, b => some (if buffer.isEmpty then b else b.pushText buffer.reverse)
  | .char c :: ps, buffer, verbatim, b =>
    feedText inside expand ps (if verbatim then c :: buffer else bufferText c ps.isEmpty buffer)
      false b
  | .reference c :: ps, buffer, verbatim, b =>
    if inside then feedText inside expand ps (bufferText c ps.isEmpty buffer) verbatim b
    else feedText inside expand ps (c :: buffer) true b
  | .entity name :: ps, buffer, _, b => do
    let b := if buffer.isEmpty then b else b.pushText buffer.reverse
    let value ← b.entity? name
    let b ← expand value (← b.countReference? inside)
    feedText inside expand ps [] false (if inside then b else { b with references := 0 })

/-- Feed the pieces of an attribute's value: tabs and line ends become spaces, and so do those that
are referred to inside entities, where an angle bracket may not stand. -/
def feedValue (inside : Bool)
    (expand : List Char → Builder → Option (List Char × Builder)) :
    List Piece → Builder → Option (List Char × Builder)
  | [], b => some ([], b)
  | .char '\r' :: .char '\n' :: ps, b => feedValue inside expand (.char '\n' :: ps) b
  | .char c :: ps, b => do
    if inside && c = '<' then none
    else
      let (cs, b) ← feedValue inside expand ps b
      some ((if isSpace c then ' ' else c) :: cs, b)
  | .reference c :: ps, b => do
    let (cs, b) ← feedValue inside expand ps b
    some ((if inside && isSpace c then ' ' else c) :: cs, b)
  | .entity name :: ps, b => do
    let value ← b.entity? name
    let (front, b) ← expand value (← b.countReference? inside)
    let (cs, b) ← feedValue inside expand ps (if inside then b else { b with references := 0 })
    some (front ++ cs, b)

def value? : Nat → List Char → Builder → Option (List Char × Builder)
  | 0, raw, b => do feedValue true (fun _ _ => none) (← Piece.ofText? raw) b
  | depth + 1, raw, b => do
    feedValue (depth + 1 < maxEntityDepth) (value? depth) (← Piece.ofText? raw) b

namespace Builder

def bind? (b : Builder) (alias? : Option String) (uri : String) : Option Builder :=
  if uri = declarationUri then none
  else match alias? with
    | none => if uri = xmlUri then none else some { b with bindings := b.bindings ++ [⟨none, uri⟩] }
    | some name =>
      if (name = "xml") ≠ (uri = xmlUri) then none
      else if b.bindings.any (·.alias? = some name) then none
      else if uri = xmlUri then some b
      else some { b with bindings := b.bindings ++ [⟨some name, uri⟩] }

def attribute? (b : Builder) (name : Written) (value : String) : Option Builder :=
  if name.space = "xmlns" then b.bind? (some name.localPart) value
  else if name.localPart = "xmlns" then b.bind? none value
  else some { b with attributes := b.attributes ++ [(name, value)] }

end Builder

def uriOf? (scope : List Binding) (space : String) : Option (Option String) :=
  let alias? := if space.isEmpty then none else some space
  match scope.find? (·.alias? = alias?) with
  | some binding => some (some binding.uri)
  | none => if space.isEmpty then some none else none

def attributeName? (scope : List Binding) (name : Written) : Option Name := do
  let uri ←
    if name.space = "xml" then some (some xmlUri)
    else if name.space.isEmpty then some none
    else uriOf? scope name.space
  some ⟨uri, name.localPart⟩

def attributes? (scope : List Binding) (written : List (Written × String)) :
    Option (List Attribute) := do
  let attributes ← written.mapM fun (name, value) => do some ⟨← attributeName? scope name, value⟩
  if (attributes.map Attribute.name).eraseDups.length = attributes.length then some attributes
  else none

namespace Builder

def opened? (b : Builder) (written : Written) : Option Unclosed := do
  let inherited := b.scope.filter fun i => !b.bindings.any (·.alias? = i.alias?)
  let scope := b.bindings ++ inherited
  let attributes ← attributes? scope b.attributes
  let uri ← uriOf? scope written.space
  some ⟨written, ⟨uri, written.localPart⟩, b.bindings, scope, attributes, []⟩

def collected (b : Builder) : Builder :=
  { b with bindings := [], attributes := [], afterText := false }

def enter? (b : Builder) : Option Builder := do
  let element ← b.opened? (← b.tag)
  some { b.collected with unclosed := element :: b.unclosed }

def leave? (b : Builder) : Option Builder := do
  let e ← b.opened? (← b.tag)
  some (b.collected.push (.element e.name e.bindings e.attributes []))

def close? (b : Builder) (name : Written) : Option Builder := do
  let _ ← b.tag
  let inherited := b.scope.filter fun i => !b.bindings.any (·.alias? = i.alias?)
  let _ ← attributes? (b.bindings ++ inherited) b.attributes
  match b.unclosed with
  | [] => none
  | u :: us =>
    if u.written = name then
      some (({ b.collected with unclosed := us }).push
        (.element u.name u.bindings u.attributes u.children.reverse))
    else none

end Builder

def feed? (depth : Nat) (expand : List Char → Builder → Option Builder) (b : Builder) :
    Token → Option Builder
  | .start name =>
    if name.space = "xmlns" then none else some { b with tag := some name, afterText := false }
  | .attr name raw => do
    let (value, b) ← value? depth raw b
    b.attribute? name (String.ofList value)
  | .enter => b.enter?
  | .leave => b.leave?
  | .close name => b.close? name
  | .text raw => do feedText (depth < maxEntityDepth) expand (← Piece.ofText? raw) [] false b
  | .cdata raw => some (b.pushText (lineFeeds [] raw))
  | .comment value => some { b.push (.comment (String.ofList value)) with afterText := false }
  | .instruction target content =>
    some { b.push (.instruction (String.ofList target) (String.ofList content)) with
      afterText := false }
  | .entity name value => some { b with entities := b.entities ++ [(name, value)] }

def build? : Nat → List Token → Builder → Option Builder
  | 0, ts, b => ts.foldlM (feed? 0 fun _ _ => none) b
  | depth + 1, ts, b =>
    ts.foldlM (feed? (depth + 1) fun value b => do
      -- the content of an entity has a tag of its own, and the one around the reference goes on behind it
      let inner ← build? depth (← Token.ofContent? value) { b with tag := none }
      some { inner with tag := b.tag }) b

def Document.read? (s : String) : Option Document := do
  let b ← build? maxEntityDepth (← Token.ofDocument? s.toList) {}
  if b.unclosed.isEmpty && b.nodes.any Node.isElement then some ⟨b.nodes.reverse⟩ else none

end Tabulate.Xml
