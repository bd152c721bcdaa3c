import Tabulate.Path.Reader

/-! Following a path from a place in a document. Each step goes from every place reached so far, and
what it reaches is put in document order without repeats. -/
namespace Tabulate

open Xml

/-- Whether an element's or attribute's name passes a test. A name without a prefix is looked for in
the default namespace if it is an element's and in no namespace if it is an attribute's. -/
def NameTest.accepts (m : Namespaces) (element : Bool) (n : Name) : NameTest → Bool
  | any => true
  | anyUnder space =>
    match m.uri? space with
    | some uri => n.uri = some uri
    | none => false
  | named (some space) own =>
    match m.uri? space with
    | some uri => n.uri = some uri && n.localPart = own
    | none => false
  | named none own => n.uri = (if element then m.default? else none) && n.localPart = own

def NodeTest.accepts (m : Namespaces) : NodeTest → Node → Bool
  | name t, .element n .. => t.accepts m true n
  | text, .text _ => true
  | node, .element .. => true
  | node, .text _ => true
  | _, _ => false

def addressLe : List Nat → List Nat → Bool
  | [], _ => true
  | _ :: _, [] => false
  | a :: as, b :: bs => a < b || (a = b && addressLe as bs)

def inOrder (ls : List Location) : List Location :=
  let sorted := ls.mergeSort fun a b => addressLe a.key b.key
  dropRepeats sorted
where
  dropRepeats : List Location → List Location
    | [] => []
    | l :: ls =>
      match dropRepeats ls with
      | [] => [l]
      | k :: ks => if l = k then k :: ks else l :: k :: ks

namespace Xml.Document

def childrenPassing (d : Document) (m : Namespaces) (t : NodeTest) : Location → List Location
  | .node address =>
    ((d.childrenAt address).zipIdx.filter fun c => t.accepts m c.1).map fun c =>
      .node (address ++ [c.2])
  | .attr .. => []

def attributesPassing (d : Document) (m : Namespaces) (t : NameTest) : Location → List Location
  | .node address =>
    ((d.attributesAt address).zipIdx.filter fun a => t.accepts m false a.1.name).map fun a =>
      .attr address a.2
  | .attr .. => []

def parentOf : Location → List Location
  | .node [] => []
  | .node address => [.node address.dropLast]
  | .attr owner _ => [.node owner]

def descendantsOf (d : Document) : Location → List Location
  | .node address => (d.addressesFrom address).map .node
  | .attr owner index => [.attr owner index]

end Xml.Document

mutual

/-- The places a path leads to from a place. -/
def Path.follow (d : Document) (m : Namespaces) : Path → Location → List Location
  | .mk absolute steps, l => followSteps d m steps [if absolute then Document.root else l]

def followSteps (d : Document) (m : Namespaces) : List Step → List Location → List Location
  | [], ls => ls
  | s :: ss, ls => followSteps d m ss (inOrder (ls.flatMap (s.reach d m)))

def Step.reach (d : Document) (m : Namespaces) : Step → Location → List Location
  | .self, l => [l]
  | .parent, l => Document.parentOf l
  | .descendants, l => d.descendantsOf l
  | .child t ps, l => keepAll d m ps (d.childrenPassing m t l)
  | .attr t ps, l => keepAll d m ps (d.attributesPassing m t l)

def keepAll (d : Document) (m : Namespaces) : List Predicate → List Location → List Location
  | [], ls => ls
  | p :: ps, ls => keepAll d m ps (p.keep d m ls)

def Predicate.keep (d : Document) (m : Namespaces) : Predicate → List Location → List Location
  | .position n, ls => ls[n - 1]?.toList
  | .last, ls => ls.getLast?.toList
  | .holds p, ls => ls.filter fun l => !(p.follow d m l).isEmpty
  | .equals p literal, ls =>
    ls.filter fun l => (p.follow d m l).any fun found => d.stringValue found = literal

end

/-- What a path written in a configuration finds from a place. Bare names are looked for in the
default namespace; a path that is the element's own tag finds the element itself. -/
def Xml.Document.resolve (d : Document) (m : Namespaces) (path : String) (l : Location) :
    Except PathError (List Location) :=
  let qualified := m.qualify path
  let isOwnTag : Bool := match l with
    | .node address =>
      match d.node? address with
      | some (.element n ..) => qualified = m.tag n
      | _ => false
    | .attr .. => false
  if isOwnTag then .ok [l]
  else (Path.read qualified).map fun w => w.path.follow d m l

end Tabulate
