import Mathlib.Data.List.Induction
import Mathlib.Logic.Relation
import Tabulate.Proofs.Order

/-! The places that a step offers: children, attributes, the parent and what is below. They are told by
the parents of places, and the lists that steps go through have just these places in document order. -/
namespace Tabulate

open Xml (Attribute Document Location Namespaces Node)

namespace Xml

def Location.parent? : Location → Option Location
  | .node [] => none
  | .node address => some (.node address.dropLast)
  | .attr owner _ => some (.node owner)

namespace Document

def nodeOf? (d : Document) : Location → Option Node
  | .node address => d.node? address
  | .attr .. => none

def attributeOf? (d : Document) : Location → Option Attribute
  | .node _ => none
  | .attr owner index => d.attribute? owner index

def IsChild (d : Document) (l n : Location) : Prop :=
  n.parent? = some l ∧ (d.nodeOf? n).isSome = true

/-- A list has just the places that are meant, in document order. -/
structure Lists (d : Document) (C : Location → Prop) (ls : List Location) : Prop where
  increasing : ls.Pairwise fun a b => d.order a < d.order b
  mem_iff (l : Location) : l ∈ ls ↔ C l

end Document

end Xml

def NodeTest.Offers (d : Document) (m : Namespaces) (t : NodeTest) (l n : Location) : Prop :=
  n.parent? = some l ∧ ∃ x, d.nodeOf? n = some x ∧ t.accepts m x = true

def NameTest.Offers (d : Document) (m : Namespaces) (t : NameTest) (l n : Location) : Prop :=
  n.parent? = some l ∧ ∃ a, d.attributeOf? n = some a ∧ t.accepts m false a.name = true

namespace Xml.Document
variable {d : Document} {C : Location → Prop} {ls ks : List Location} {l n : Location}

/-- There is only one list of the same places. -/
theorem Lists.eq (h : d.Lists C ls) (h' : d.Lists C ks) : ls = ks := by
  have hirrefl : Std.Irrefl fun a b => d.order a < d.order b := ⟨fun a => lt_irrefl _⟩
  have hanti : Std.Antisymm fun a b => d.order a < d.order b :=
    ⟨fun a b hab hba => absurd hba (lt_asymm hab)⟩
  exact h.increasing.eq_of_mem_iff h'.increasing fun l => (h.mem_iff l).trans (h'.mem_iff l).symm

theorem Lists.filter (h : d.Lists C ls) (p : Location → Bool) :
    d.Lists (fun l => C l ∧ p l = true) (ls.filter p) :=
  ⟨h.increasing.filter p, fun l => by rw [List.mem_filter, h.mem_iff]⟩

theorem Lists.congr {D : Location → Prop} (h : d.Lists C ls) (hCD : ∀ l, C l ↔ D l) : d.Lists D ls :=
  ⟨h.increasing, fun l => (h.mem_iff l).trans (hCD l)⟩

/-- Places in the order of their keys are in document order. -/
theorem lists_of_keys (hinc : ls.Pairwise fun a b => a.key < b.key) (hmem : ∀ l, l ∈ ls ↔ C l)
    (hC : ∀ l, C l → d.holds l = true) : d.Lists C ls := by
  refine ⟨hinc.imp_of_mem fun {a b} ha hb hab => ?_, hmem⟩
  exact (order_lt_iff (hC a ((hmem a).1 ha)) (hC b ((hmem b).1 hb))).2 hab

/-- What is listed from each of several places is merged into one list. -/
theorem Lists.merge (h : d.Lists C ls) {P : Location → Location → Prop} {f : Location → List Location}
    (hf : ∀ l, C l → d.Lists (P l) (f l)) (hP : ∀ l n, C l → P l n → d.holds n = true) :
    d.Lists (fun n => ∃ l, C l ∧ P l n) (inOrder (ls.flatMap f)) := by
  refine lists_of_keys (inOrder_increasing _) (fun n => ?_) ?_
  · rw [mem_inOrder, List.mem_flatMap]
    constructor
    · intro ⟨l, hl, hn⟩
      have hCl := (h.mem_iff l).1 hl
      exact ⟨l, hCl, ((hf l hCl).mem_iff n).1 hn⟩
    · intro ⟨l, hCl, hn⟩
      exact ⟨l, (h.mem_iff l).2 hCl, ((hf l hCl).mem_iff n).2 hn⟩
  · intro n ⟨l, hCl, hn⟩
    exact hP l n hCl hn

theorem lists_singleton (d : Document) (l : Location) : d.Lists (fun n => n = l) [l] :=
  ⟨List.pairwise_singleton .., fun _ => List.mem_singleton⟩

theorem parent?_node (address : List Nat) (i : Nat) :
    (Location.node (address ++ [i])).parent? = some (.node address) := by
  cases address with
  | nil => rfl
  | cons j address =>
    show some (Location.node (j :: (address ++ [i])).dropLast) = _
    rw [← List.cons_append, List.dropLast_concat]

theorem parent?_ne_attr {owner : List Nat} {index : Nat} : n.parent? ≠ some (.attr owner index) := by
  intro h
  cases n with
  | node address => cases address <;> cases h
  | attr => cases h

theorem parent?_eq_some_node {address b : List Nat} :
    (Location.node b).parent? = some (.node address) ↔ ∃ i, b = address ++ [i] := by
  constructor
  · intro h
    cases b with
    | nil => cases h
    | cons j b =>
      have hdrop : (j :: b).dropLast = address := by
        injection h with h
        injection h
      exact ⟨(j :: b).getLast (by simp), by rw [← hdrop, List.dropLast_append_getLast]⟩
  · rintro ⟨i, rfl⟩
    exact parent?_node address i

theorem nodeOf?_child (d : Document) (address : List Nat) (i : Nat) :
    d.nodeOf? (.node (address ++ [i])) = (d.childrenAt address)[i]? := by
  cases address with
  | nil => rfl
  | cons j address =>
    rw [nodeOf?, node?_append (by simp), childrenAt]
    · cases d.node? (j :: address) with
      | none => simp
      | some x => exact Option.bind_fun_some _
    · simp

theorem holds_of_nodeOf? {x : Node} (h : d.nodeOf? n = some x) : d.holds n = true := by
  cases n with
  | node address =>
    rw [nodeOf?] at h
    rw [holds, h]
    exact Bool.or_true _
  | attr owner index => cases h

theorem holds_of_attributeOf? {a : Attribute} (h : d.attributeOf? n = some a) : d.holds n = true := by
  cases n with
  | node address => cases h
  | attr owner index =>
    rw [attributeOf?] at h
    rw [holds, h]
    rfl

theorem holds_of_offered {m : Namespaces} {t : NodeTest} (h : t.Offers d m l n) : d.holds n = true := by
  obtain ⟨-, x, hx, -⟩ := h
  exact holds_of_nodeOf? hx

theorem holds_of_offered_attribute {m : Namespaces} {t : NameTest} (h : t.Offers d m l n) :
    d.holds n = true := by
  obtain ⟨-, a, ha, -⟩ := h
  exact holds_of_attributeOf? ha

theorem zipIdx_increasing {α : Type} (xs : List α) : xs.zipIdx.Pairwise fun a b => a.2 < b.2 := by
  rw [← List.pairwise_map, List.zipIdx_map_snd]
  exact List.pairwise_lt_range'

theorem childrenPassing_lists (d : Document) (m : Namespaces) (t : NodeTest) (l : Location) :
    d.Lists (t.Offers d m l) (d.childrenPassing m t l) := by
  refine lists_of_keys ?_ ?_ fun n => holds_of_offered
  · cases l with
    | attr owner index => exact .nil
    | node address =>
      rw [childrenPassing, List.pairwise_map]
      refine ((zipIdx_increasing _).filter _).imp fun {a b} hab => ?_
      rw [Location.key_lt_iff]
      exact .inl (List.append_left_lt (List.cons_lt_cons_iff.2 (.inl hab)))
  · intro n
    cases l with
    | attr owner index =>
      exact iff_of_false List.not_mem_nil fun h => parent?_ne_attr h.1
    | node address =>
      simp only [childrenPassing, List.mem_map, List.mem_filter, Prod.exists,
        List.mem_zipIdx_iff_getElem?, ← nodeOf?_child, NodeTest.Offers]
      constructor
      · rintro ⟨x, i, ⟨hx, ht⟩, rfl⟩
        exact ⟨parent?_node address i, x, hx, ht⟩
      · rintro ⟨hparent, x, hx, ht⟩
        cases n with
        | node b =>
          obtain ⟨i, rfl⟩ := parent?_eq_some_node.1 hparent
          exact ⟨x, i, ⟨hx, ht⟩, rfl⟩
        | attr owner index => cases hx

theorem attributesPassing_lists (d : Document) (m : Namespaces) (t : NameTest) (l : Location) :
    d.Lists (t.Offers d m l) (d.attributesPassing m t l) := by
  refine lists_of_keys ?_ ?_ fun n => holds_of_offered_attribute
  · cases l with
    | attr owner index => exact .nil
    | node address =>
      rw [attributesPassing, List.pairwise_map]
      refine ((zipIdx_increasing _).filter _).imp fun {a b} hab => ?_
      rw [Location.key_lt_iff]
      exact .inr ⟨rfl, Nat.succ_lt_succ hab⟩
  · intro n
    cases l with
    | attr owner index =>
      exact iff_of_false List.not_mem_nil fun h => parent?_ne_attr h.1
    | node address =>
      simp only [attributesPassing, List.mem_map, List.mem_filter, Prod.exists,
        List.mem_zipIdx_iff_getElem?, NameTest.Offers]
      constructor
      · rintro ⟨a, i, ⟨ha, ht⟩, rfl⟩
        exact ⟨rfl, a, ha, ht⟩
      · rintro ⟨hparent, a, ha, ht⟩
        cases n with
        | node b => cases ha
        | attr owner index =>
          cases hparent
          exact ⟨a, index, ⟨ha, ht⟩, rfl⟩

theorem holds_parent (hn : d.holds n = true) (h : n.parent? = some l) : d.holds l = true := by
  cases n with
  | attr owner index =>
    cases h
    exact holds_home hn
  | node b =>
    cases l with
    | attr owner index => exact absurd h parent?_ne_attr
    | node address =>
      obtain ⟨i, rfl⟩ := parent?_eq_some_node.1 h
      cases address with
      | nil => rfl
      | cons j address =>
        rw [holds, node?_append (by simp)] at hn
        cases hx : d.node? (j :: address) with
        | none => simp [hx] at hn
        | some x => exact holds_of_nodeOf? (n := .node _) hx

theorem parentOf_eq (l : Location) : parentOf l = l.parent?.toList := by
  cases l with
  | attr owner index => rfl
  | node address => cases address <;> rfl

theorem lists_toList (o : Option Location) : d.Lists (fun n => o = some n) o.toList := by
  refine ⟨?_, fun n => Option.mem_toList.trans Iff.rfl⟩
  cases o with
  | none => exact .nil
  | some l => exact List.pairwise_singleton ..

theorem holds_of_below (hl : d.holds l = true) (h : Relation.ReflTransGen d.IsChild l n) :
    d.holds n = true := by
  induction h with
  | refl => exact hl
  | tail _ hchild _ =>
    obtain ⟨x, hx⟩ := Option.isSome_iff_exists.1 hchild.2
    exact holds_of_nodeOf? hx

/-- Below a node are the places whose addresses begin with its address. -/
theorem below_iff {address : List Nat} (hl : d.holds (.node address) = true) :
    Relation.ReflTransGen d.IsChild (.node address) n ↔
      ∃ x, n = .node x ∧ address <+: x ∧ d.holds (.node x) = true := by
  constructor
  · intro h
    induction h with
    | refl => exact ⟨address, rfl, List.prefix_refl _, hl⟩
    | @tail k n _ hchild ih =>
      obtain ⟨x, rfl, hx, -⟩ := ih
      obtain ⟨hparent, hsome⟩ := hchild
      obtain ⟨y, hy⟩ := Option.isSome_iff_exists.1 hsome
      cases n with
      | attr owner index => cases hy
      | node b =>
        obtain ⟨i, rfl⟩ := parent?_eq_some_node.1 hparent
        exact ⟨x ++ [i], rfl, hx.trans (List.prefix_append ..), holds_of_nodeOf? hy⟩
  · rintro ⟨x, rfl, ⟨rest, rfl⟩, hx⟩
    -- Descend from the address along what is added to it, one index at a time.
    induction rest using List.reverseRecOn with
    | nil => rw [List.append_nil]
    | append_singleton rest i ih =>
      rw [← List.append_assoc] at hx ⊢
      have hparent := parent?_node (address ++ rest) i
      refine (ih (holds_parent hx hparent)).tail ⟨hparent, ?_⟩
      simpa [holds, nodeOf?] using hx

theorem descendantsOf_lists (hl : d.holds l = true) :
    d.Lists (Relation.ReflTransGen d.IsChild l) (d.descendantsOf l) := by
  cases l with
  | attr owner index =>
    refine (lists_singleton d _).congr fun n => ⟨fun h => h ▸ .refl, fun h => ?_⟩
    cases h.cases_head with
    | inl h => exact h.symm
    | inr h =>
      obtain ⟨k, hchild, -⟩ := h
      exact absurd hchild.1 parent?_ne_attr
  | node address =>
    refine lists_of_keys ?_ (fun n => ?_) fun n => holds_of_below hl
    · rw [descendantsOf, List.pairwise_map]
      refine (d.addressesFrom_increasing address).imp fun hab => ?_
      rw [Location.key_lt_iff]
      exact .inl hab
    · rw [descendantsOf, below_iff hl, List.mem_map]
      simp only [mem_addressesFrom hl]
      constructor
      · rintro ⟨x, h, rfl⟩
        exact ⟨x, rfl, h⟩
      · rintro ⟨x, rfl, h⟩
        exact ⟨x, h, rfl⟩

/-- The place at a position of a list, counted in any list of the same places. -/
theorem Lists.position (h : d.Lists C ls) (i : Nat) :
    d.Lists (fun n => C n ∧ ∃ before after, d.Lists C (before ++ n :: after) ∧ before.length = i)
      ls[i]?.toList := by
  refine (lists_toList ls[i]?).congr fun n => ?_
  constructor
  · intro hn
    obtain ⟨hi, rfl⟩ := List.getElem?_eq_some_iff.1 hn
    refine ⟨(h.mem_iff _).1 (List.getElem_mem hi), ls.take i, ls.drop (i + 1), ?_, by simp; omega⟩
    rwa [List.getElem_cons_drop, List.take_append_drop]
  · rintro ⟨-, before, after, hls, rfl⟩
    rw [h.eq hls]
    simp

theorem Lists.last (h : d.Lists C ls) :
    d.Lists (fun n => C n ∧ ∃ before, d.Lists C (before ++ [n])) ls.getLast?.toList := by
  refine (lists_toList ls.getLast?).congr fun n => ?_
  rw [List.getLast?_eq_some_iff]
  constructor
  · rintro ⟨before, rfl⟩
    exact ⟨(h.mem_iff n).1 (by simp), before, h⟩
  · rintro ⟨-, before, hls⟩
    exact ⟨before, h.eq hls⟩

end Xml.Document

end Tabulate
