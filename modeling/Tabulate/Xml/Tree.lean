import Tabulate.Xml.Token

/-! Documents as trees, and the places in them. A place is an address, the indices of the children
to descend to from the document node, or an attribute of the element at an address. Places are
ordered as the document writes them: a node, its attributes, its children. -/
namespace Tabulate.Xml

structure Binding where
  alias? : Option String
  uri : String
deriving DecidableEq, Repr

structure Attribute where
  name : Name
  value : String
deriving DecidableEq, Repr

inductive Node where
  | element (name : Name) (bindings : List Binding) (attributes : List Attribute)
      (children : List Node)
  | text (value : String)
  | comment (value : String)
  | instruction (target : String) (content : String)
deriving Repr

namespace Node

def isElement : Node → Bool
  | element .. => true
  | _ => false

def children : Node → List Node
  | element _ _ _ children => children
  | _ => []

def attributes : Node → List Attribute
  | element _ _ attributes _ => attributes
  | _ => []

def bindings : Node → List Binding
  | element _ bindings _ _ => bindings
  | _ => []

mutual

def content : Node → String
  | element _ _ _ children => contents children
  | text value => value
  | comment _ => ""
  | instruction .. => ""

def contents : List Node → String
  | [] => ""
  | n :: ns => n.content ++ contents ns

end

end Node

def nodeAt? : List Node → List Nat → Option Node
  | _, [] => none
  | nodes, [i] => nodes[i]?
  | nodes, i :: rest =>
    match nodes[i]? with
    | some n => nodeAt? n.children rest
    | none => none

mutual

def addresses (address : List Nat) : Node → List (List Nat)
  | .element _ _ _ children => address :: addressesFrom address 0 children
  | .text _ => [address]
  | .comment _ => [address]
  | .instruction .. => [address]

def addressesFrom (parent : List Nat) (i : Nat) : List Node → List (List Nat)
  | [] => []
  | n :: ns => addresses (parent ++ [i]) n ++ addressesFrom parent (i + 1) ns

end

structure Document where
  nodes : List Node
deriving Repr

inductive Location where
  | node (address : List Nat)
  | attr (owner : List Nat) (index : Nat)
deriving DecidableEq, Repr

def Location.key : Location → List Nat
  | node address => address.map (· + 1)
  | attr owner index => owner.map (· + 1) ++ [0, index]

namespace Document

def root : Location := .node []

def node? (d : Document) (address : List Nat) : Option Node := nodeAt? d.nodes address

def element (d : Document) : Location := .node [d.nodes.findIdx Node.isElement]

def elementNode? (d : Document) : Option Node := d.nodes.find? Node.isElement

def childrenAt (d : Document) : List Nat → List Node
  | [] => d.nodes
  | address => ((d.node? address).map Node.children).getD []

def attributesAt (d : Document) (address : List Nat) : List Attribute :=
  ((d.node? address).map Node.attributes).getD []

def attribute? (d : Document) (owner : List Nat) (index : Nat) : Option Attribute :=
  (d.attributesAt owner)[index]?

def addressesFrom (d : Document) : List Nat → List (List Nat)
  | [] => [] :: Xml.addressesFrom [] 0 d.nodes
  | address => ((d.node? address).map (addresses address)).getD [address]

def stringValue (d : Document) : Location → String
  | .attr owner index => ((d.attribute? owner index).map Attribute.value).getD ""
  | .node [] => Node.contents d.nodes
  | .node address => ((d.node? address).map Node.content).getD ""

def isElement (d : Document) : Location → Bool
  | .node address => (d.node? address).any Node.isElement
  | .attr .. => false

end Document

end Tabulate.Xml
