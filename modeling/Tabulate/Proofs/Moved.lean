import Tabulate.Proofs.Aliases

/-! Documents whose elements are moved into a namespace that the document element declares as the
default. Places, texts and attributes stay, so a path that does not name the namespace finds in the
moved document what it finds in the one without namespaces. -/
namespace Tabulate

open Xml

def Xml.isLocalName (s : String) : Bool :=
  match s.toList with
  | [] => false
  | c :: cs => isNameStart c && (c :: cs).all fun c => isNameChar c && c != ':'

mutual

def Xml.Node.plain : Node → Bool
  | .element n bs _ cs => n.uri.isNone && isLocalName n.localPart && bs.isEmpty && allPlain cs
  | .text _ => true
  | .comment _ => true
  | .instruction .. => true

def Xml.allPlain : List Node → Bool
  | [] => true
  | n :: ns => n.plain && allPlain ns

end

mutual

def Xml.Node.moved (uri : String) (bs : List Binding) : Node → Node
  | .element n _ as cs => .element ⟨some uri, n.localPart⟩ bs as (allMoved uri cs)
  | .text value => .text value
  | .comment value => .comment value
  | .instruction target content => .instruction target content

def Xml.allMoved (uri : String) : List Node → List Node
  | [] => []
  | n :: ns => n.moved uri [] :: allMoved uri ns

end

namespace Xml.Document

def plain (d : Document) : Bool := allPlain d.nodes

def moved (d : Document) (uri : String) : Document := ⟨d.nodes.map (Node.moved uri [⟨none, uri⟩])⟩

end Xml.Document

section Nodes
variable {uri : String} {bs : List Binding}

theorem allMoved_eq_map (ns : List Node) : allMoved uri ns = ns.map (Node.moved uri []) := by
  induction ns with
  | nil => rfl
  | cons n ns ih => rw [allMoved, ih, List.map_cons]

@[simp] theorem children_moved (n : Node) :
    (n.moved uri bs).children = n.children.map (Node.moved uri []) := by
  cases n <;> simp [Node.moved, Node.children, allMoved_eq_map]

@[simp] theorem attributes_moved (n : Node) : (n.moved uri bs).attributes = n.attributes := by
  cases n <;> rfl

@[simp] theorem isElement_moved (n : Node) : (n.moved uri bs).isElement = n.isElement := by
  cases n <;> rfl

mutual

theorem content_moved (bs : List Binding) : (n : Node) → (n.moved uri bs).content = n.content
  | .element _ _ _ cs => contents_moved cs
  | .text _ | .comment _ | .instruction .. => rfl

theorem contents_moved : (ns : List Node) → Node.contents (allMoved uri ns) = Node.contents ns
  | [] => rfl
  | n :: ns => by rw [allMoved, Node.contents, Node.contents, content_moved [] n, contents_moved ns]

end

theorem contents_map_moved (bs : List Binding) (ns : List Node) :
    Node.contents (ns.map (Node.moved uri bs)) = Node.contents ns := by
  induction ns with
  | nil => rfl
  | cons n ns ih => rw [List.map_cons, Node.contents, Node.contents, content_moved bs n, ih]

mutual

theorem addresses_moved (bs : List Binding) (address : List Nat) :
    (n : Node) → addresses address (n.moved uri bs) = addresses address n
  | .element _ _ _ cs => by rw [Node.moved, addresses, addresses, addressesFrom_moved address 0 cs]
  | .text _ | .comment _ | .instruction .. => rfl

theorem addressesFrom_moved (parent : List Nat) (i : Nat) :
    (ns : List Node) → Xml.addressesFrom parent i (allMoved uri ns) = Xml.addressesFrom parent i ns
  | [] => rfl
  | n :: ns => by
    rw [allMoved, Xml.addressesFrom, Xml.addressesFrom, addresses_moved [] _ n,
      addressesFrom_moved parent (i + 1) ns]

end

theorem addressesFrom_map_moved (bs : List Binding) (parent : List Nat) (i : Nat) (ns : List Node) :
    Xml.addressesFrom parent i (ns.map (Node.moved uri bs)) = Xml.addressesFrom parent i ns := by
  induction ns generalizing i with
  | nil => rfl
  | cons n ns ih =>
    rw [List.map_cons, Xml.addressesFrom, Xml.addressesFrom, addresses_moved bs _ n, ih]

theorem nodeAt?_moved (address : List Nat) (ns : List Node) (bs : List Binding) :
    ∃ bs', nodeAt? (ns.map (Node.moved uri bs)) address =
      (nodeAt? ns address).map (Node.moved uri bs') := by
  induction address generalizing ns bs with
  | nil => exact ⟨[], rfl⟩
  | cons i rest ih =>
    cases rest with
    | nil => exact ⟨bs, by simp [nodeAt?]⟩
    | cons j rest =>
      simp only [nodeAt?, List.getElem?_map]
      cases ns[i]? with
      | none => exact ⟨[], rfl⟩
      | some n =>
        obtain ⟨bs', h⟩ := ih n.children []
        exact ⟨bs', by simpa using h⟩

theorem allPlain_iff (ns : List Node) : allPlain ns = true ↔ ∀ n ∈ ns, n.plain = true := by
  induction ns with
  | nil => simp [allPlain]
  | cons n ns ih => simp [allPlain, ih]

theorem plain_of_mem_children {n c : Node} (hn : n.plain = true) (hc : c ∈ n.children) :
    c.plain = true := by
  cases n with
  | element name bs as cs =>
    simp only [Node.plain, Bool.and_eq_true] at hn
    exact (allPlain_iff cs).1 hn.2 c hc
  | text _ => cases hc
  | comment _ => cases hc
  | instruction _ _ => cases hc

theorem plain_of_nodeAt? {ns : List Node} {address : List Nat} {n : Node}
    (hns : ∀ n ∈ ns, n.plain = true) (h : nodeAt? ns address = some n) : n.plain = true := by
  induction address generalizing ns with
  | nil => cases h
  | cons i rest ih =>
    cases rest with
    | nil => exact hns n (List.mem_of_getElem? h)
    | cons j rest =>
      simp only [nodeAt?] at h
      cases hi : ns[i]? with
      | none =>
        rw [hi] at h
        cases h
      | some c =>
        rw [hi] at h
        exact ih (fun k hk => plain_of_mem_children (hns c (List.mem_of_getElem? hi)) hk) h

end Nodes

namespace Xml.Document
variable {d : Document} {uri : String}

theorem node?_moved (d : Document) (uri : String) (address : List Nat) :
    ∃ bs, (d.moved uri).node? address = (d.node? address).map (Node.moved uri bs) :=
  nodeAt?_moved address d.nodes _

theorem childrenAt_moved (d : Document) (uri : String) (address : List Nat) :
    ∃ bs, (d.moved uri).childrenAt address = (d.childrenAt address).map (Node.moved uri bs) := by
  cases address with
  | nil => exact ⟨_, rfl⟩
  | cons i rest =>
    obtain ⟨bs, h⟩ := d.node?_moved uri (i :: rest)
    refine ⟨[], ?_⟩
    simp only [childrenAt, h]
    cases d.node? (i :: rest) <;> simp

theorem attributesAt_moved (d : Document) (uri : String) (address : List Nat) :
    (d.moved uri).attributesAt address = d.attributesAt address := by
  obtain ⟨bs, h⟩ := d.node?_moved uri address
  rw [attributesAt, attributesAt, h]
  cases d.node? address <;> simp

theorem stringValue_moved (d : Document) (uri : String) (l : Location) :
    (d.moved uri).stringValue l = d.stringValue l := by
  cases l with
  | attr owner index => simp only [stringValue, attribute?, attributesAt_moved]
  | node address =>
    cases address with
    | nil => exact contents_map_moved _ d.nodes
    | cons i rest =>
      obtain ⟨bs, h⟩ := d.node?_moved uri (i :: rest)
      simp only [stringValue, h]
      cases d.node? (i :: rest) <;> simp [content_moved]

theorem addressesFrom_moved (d : Document) (uri : String) (address : List Nat) :
    (d.moved uri).addressesFrom address = d.addressesFrom address := by
  cases address with
  | nil => exact congrArg (List.cons []) (addressesFrom_map_moved _ [] 0 d.nodes)
  | cons i rest =>
    obtain ⟨bs, h⟩ := d.node?_moved uri (i :: rest)
    simp only [addressesFrom, h]
    cases d.node? (i :: rest) <;> simp [addresses_moved]

theorem plain_of_node? (hd : d.plain = true) {address : List Nat} {n : Node}
    (h : d.node? address = some n) : n.plain = true :=
  plain_of_nodeAt? ((allPlain_iff d.nodes).1 hd) h

theorem plain_of_mem_childrenAt (hd : d.plain = true) {address : List Nat} {n : Node}
    (h : n ∈ d.childrenAt address) : n.plain = true := by
  cases address with
  | nil => exact (allPlain_iff d.nodes).1 hd n h
  | cons i rest =>
    simp only [childrenAt] at h
    cases hn : d.node? (i :: rest) with
    | none =>
      rw [hn] at h
      cases h
    | some k =>
      rw [hn] at h
      exact plain_of_mem_children (plain_of_node? hd hn) h

theorem exists_element_of_nodeAt? {ns : List Node} {address : List Nat} {n : Node}
    (hn : n.isElement = true) (h : nodeAt? ns address = some n) : ∃ k ∈ ns, k.isElement = true := by
  cases address with
  | nil => cases h
  | cons i rest =>
    cases rest with
    | nil => exact ⟨n, List.mem_of_getElem? h, hn⟩
    | cons j rest =>
      simp only [nodeAt?] at h
      cases hi : ns[i]? with
      | none =>
        rw [hi] at h
        cases h
      | some k =>
        refine ⟨k, List.mem_of_getElem? hi, ?_⟩
        rw [hi] at h
        cases k with
        | element name bs as cs => rfl
        | text _ => cases rest <;> simp [nodeAt?, Node.children] at h
        | comment _ => cases rest <;> simp [nodeAt?, Node.children] at h
        | instruction _ _ => cases rest <;> simp [nodeAt?, Node.children] at h

/-- A document without namespaces has no names to give. -/
theorem namespaces_of_plain (hd : d.plain = true) : Namespaces.ofDocument d = .empty := by
  rw [Namespaces.ofDocument]
  cases h : d.elementNode? with
  | none => rfl
  | some n =>
    have hn := (allPlain_iff d.nodes).1 hd n (List.mem_of_find?_eq_some h)
    cases n with
    | element name bs as cs =>
      simp only [Node.plain, Bool.and_eq_true, List.isEmpty_iff] at hn
      simp only [Option.map_some, Option.getD_some, Node.bindings, hn.1.2]
      rfl
    | text _ => rfl
    | comment _ => rfl
    | instruction _ _ => rfl

def movedNames (uri : String) : Namespaces := Namespaces.empty.insert Namespaces.defaultAlias uri

theorem namespaces_moved (h : d.elementNode?.isSome = true) :
    Namespaces.ofDocument (d.moved uri) = movedNames uri := by
  obtain ⟨n, hn⟩ := Option.isSome_iff_exists.1 h
  have hmoved : (d.moved uri).elementNode? = some (n.moved uri [⟨none, uri⟩]) := by
    rw [elementNode?, moved, List.find?_map]
    have hsame : Node.isElement ∘ Node.moved uri [⟨none, uri⟩] = Node.isElement :=
      funext fun n => isElement_moved n
    rw [hsame, ← elementNode?, hn]
    rfl
  have helem : n.isElement = true := List.find?_some hn
  cases n with
  | element name bs as cs =>
    rw [Namespaces.ofDocument, hmoved]
    rfl
  | text _ => cases helem
  | comment _ => cases helem
  | instruction _ _ => cases helem

theorem elementNode?_isSome {l : Location} (h : d.isElement l = true) :
    d.elementNode?.isSome = true := by
  cases l with
  | attr owner index => cases h
  | node address =>
    obtain ⟨n, hn, helem⟩ := (Option.any_eq_true ..).1 h
    obtain ⟨k, hk, hke⟩ := exists_element_of_nodeAt? helem hn
    exact List.find?_isSome.2 ⟨k, hk, hke⟩

end Xml.Document

section Following
variable {d : Document} {uri : String}

theorem uri?_movedNames (uri space : String) (h : space ≠ Namespaces.defaultAlias) :
    (Document.movedNames uri).uri? space = Namespaces.empty.uri? space := by
  simp [Document.movedNames, Namespaces.uri?, Namespaces.insert, Namespaces.empty, h.symm]

theorem default?_movedNames (uri : String) : (Document.movedNames uri).default? = some uri := rfl

theorem uri?_empty (space uri : String) (h : Namespaces.empty.uri? space = some uri) : uri = xmlUri := by
  simp only [Namespaces.uri?, Namespaces.empty, List.find?_nil] at h
  split at h
  · exact (Option.some.inj h).symm
  · cases h

theorem NameTest.accepts_moved (hu : uri ≠ xmlUri) {t : NameTest} (ht : t.unaliased = true)
    (own : String) : t.accepts (Document.movedNames uri) true ⟨some uri, own⟩ =
      t.accepts .empty true ⟨none, own⟩ := by
  match t with
  | any => rfl
  | named none _ =>
    simp only [accepts, if_true, default?_movedNames]
    rfl
  | anyUnder space | named (some space) _ =>
    rw [unaliased, bne_iff_ne] at ht
    simp only [accepts, uri?_movedNames uri space ht]
    cases h : Namespaces.empty.uri? space with
    | none => rfl
    | some v =>
      obtain rfl := uri?_empty space v h
      simp [hu]

theorem NodeTest.accepts_moved (hu : uri ≠ xmlUri) {t : NodeTest} (ht : t.unaliased = true)
    {n : Node} (hn : n.plain = true) (bs : List Binding) :
    t.accepts (Document.movedNames uri) (n.moved uri bs) = t.accepts .empty n := by
  match t, n with
  | name t, .element ⟨none, own⟩ _ _ _ => exact NameTest.accepts_moved hu ht own
  | name t, .element ⟨some _, own⟩ _ _ _ => cases hn
  | name _, .text _ | name _, .comment _ | name _, .instruction .. => rfl
  | text, .element .. | text, .text _ | text, .comment _ | text, .instruction .. => rfl
  | node, .element .. | node, .text _ | node, .comment _ | node, .instruction .. => rfl

/-- The names of attributes are not moved. -/
theorem NameTest.accepts_attribute {t : NameTest} (ht : t.unaliased = true) (n : Name) :
    t.accepts (Document.movedNames uri) false n = t.accepts .empty false n := by
  match t with
  | any | named none _ => rfl
  | anyUnder space | named (some space) _ =>
    rw [unaliased, bne_iff_ne] at ht
    simp only [accepts, uri?_movedNames uri space ht]

theorem childrenPassing_moved (hd : d.plain = true) (hu : uri ≠ xmlUri) {t : NodeTest}
    (ht : t.unaliased = true) (l : Location) :
    (d.moved uri).childrenPassing (Document.movedNames uri) t l = d.childrenPassing .empty t l := by
  cases l with
  | attr owner index => rfl
  | node address =>
    obtain ⟨bs, h⟩ := d.childrenAt_moved uri address
    have hsame : ∀ c ∈ (d.childrenAt address).zipIdx,
        t.accepts (Document.movedNames uri) (c.1.moved uri bs) = t.accepts .empty c.1 :=
      fun c hc => t.accepts_moved hu ht
        (Document.plain_of_mem_childrenAt hd (List.fst_mem_of_mem_zipIdx hc)) bs
    simp only [Document.childrenPassing, h, List.zipIdx_map, List.filter_map, List.map_map]
    refine congrArg (List.map _) (List.filter_congr fun c hc => ?_)
    exact hsame c hc

theorem attributesPassing_moved {t : NameTest} (ht : t.unaliased = true) (l : Location) :
    (d.moved uri).attributesPassing (Document.movedNames uri) t l = d.attributesPassing .empty t l := by
  cases l with
  | attr owner index => rfl
  | node address =>
    simp only [Document.attributesPassing, Document.attributesAt_moved, NameTest.accepts_attribute ht]

mutual

theorem Path.follow_moved (hd : d.plain = true) (hu : uri ≠ xmlUri) :
    (p : Path) → p.unaliased = true → ∀ l,
      p.follow (d.moved uri) (Document.movedNames uri) l = p.follow d .empty l
  | .mk _ steps => fun hp _ => followSteps_moved hd hu steps hp _

theorem followSteps_moved (hd : d.plain = true) (hu : uri ≠ xmlUri) :
    (ss : List Step) → unaliasedSteps ss = true → ∀ ls,
      followSteps (d.moved uri) (Document.movedNames uri) ss ls = followSteps d .empty ss ls
  | [] => fun _ ls => rfl
  | s :: ss => fun hss ls => by
    rw [unaliasedSteps, Bool.and_eq_true] at hss
    have hs : s.reach (d.moved uri) (Document.movedNames uri) = s.reach d .empty :=
      funext (s.reach_moved hd hu hss.1)
    rw [followSteps, followSteps, hs, followSteps_moved hd hu ss hss.2]

theorem Step.reach_moved (hd : d.plain = true) (hu : uri ≠ xmlUri) :
    (s : Step) → s.unaliased = true → ∀ l,
      s.reach (d.moved uri) (Document.movedNames uri) l = s.reach d .empty l
  | .self | .parent => fun _ _ => rfl
  | .descendants => fun _ l => by
    cases l with
    | node address => simp only [Step.reach, Document.descendantsOf, Document.addressesFrom_moved]
    | attr owner index => rfl
  | .child t ps => fun hs l => by
    rw [Step.unaliased, Bool.and_eq_true] at hs
    rw [Step.reach, Step.reach, childrenPassing_moved hd hu hs.1, keepAll_moved hd hu ps hs.2]
  | .attr t ps => fun hs l => by
    rw [Step.unaliased, Bool.and_eq_true] at hs
    rw [Step.reach, Step.reach, attributesPassing_moved hs.1, keepAll_moved hd hu ps hs.2]

theorem keepAll_moved (hd : d.plain = true) (hu : uri ≠ xmlUri) :
    (ps : List Predicate) → unaliasedPredicates ps = true → ∀ ls,
      keepAll (d.moved uri) (Document.movedNames uri) ps ls = keepAll d .empty ps ls
  | [] => fun _ ls => rfl
  | p :: ps => fun hps ls => by
    rw [unaliasedPredicates, Bool.and_eq_true] at hps
    rw [keepAll, keepAll, p.keep_moved hd hu hps.1, keepAll_moved hd hu ps hps.2]

theorem Predicate.keep_moved (hd : d.plain = true) (hu : uri ≠ xmlUri) :
    (p : Predicate) → p.unaliased = true → ∀ ls,
      p.keep (d.moved uri) (Document.movedNames uri) ls = p.keep d .empty ls
  | .position _ | .last => fun _ ls => rfl
  | .holds p => fun hp ls => by
    have hf : p.follow (d.moved uri) (Document.movedNames uri) = p.follow d .empty :=
      funext (p.follow_moved hd hu hp)
    rw [Predicate.keep, Predicate.keep, hf]
  | .equals p literal => fun hp ls => by
    have hf : p.follow (d.moved uri) (Document.movedNames uri) = p.follow d .empty :=
      funext (p.follow_moved hd hu hp)
    have hv : (d.moved uri).stringValue = d.stringValue := funext (d.stringValue_moved uri)
    rw [Predicate.keep, Predicate.keep, hf, hv]

end

end Following

end Tabulate
