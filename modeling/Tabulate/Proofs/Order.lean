import Mathlib.Data.List.Lex
import Mathlib.Data.List.Sort
import Mathlib.Data.Prod.Lex
import Tabulate.Path.Follow

/-! Document order. A place is numbered by the index of its node in the listing of the whole document,
attributes behind their element. Keys compare as these numbers do, so what is put in order by its keys
is strictly increasing in the document. -/
namespace Tabulate.Xml

namespace Location

/-- The address of the node at a place, or of the element that has the attribute. -/
def home : Location → List Nat
  | node address => address
  | attr owner _ => owner

def rank : Location → Nat
  | node _ => 0
  | attr _ index => index + 1

theorem eq_of_home_rank {l k : Location} (hhome : l.home = k.home) (hrank : l.rank = k.rank) : l = k := by
  cases l <;> cases k <;> cases hhome <;> cases hrank <;> rfl

def keyEnd : Nat → List Nat
  | 0 => []
  | i + 1 => [0, i]

theorem key_eq (l : Location) : l.key = l.home.map (· + 1) ++ keyEnd l.rank := by
  cases l with
  | node address => exact (List.append_nil _).symm
  | attr owner index => rfl

theorem keyEnd_lt_iff (r s : Nat) : keyEnd r < keyEnd s ↔ r < s := by
  cases r <;> cases s <;> simp [keyEnd, List.cons_lt_cons_iff]

theorem keyed_lt_iff (r s : Nat) (a b : List Nat) :
    a.map (· + 1) ++ keyEnd r < b.map (· + 1) ++ keyEnd s ↔ a < b ∨ a = b ∧ r < s := by
  induction a generalizing b with
  | nil =>
    cases b with
    | nil => simpa using keyEnd_lt_iff r s
    | cons j b => cases r <;> simp [keyEnd, List.cons_lt_cons_iff]
  | cons i a ih =>
    cases b with
    | nil => cases s <;> simp [keyEnd, List.cons_lt_cons_iff]
    | cons j b =>
      simp only [List.map_cons, List.cons_append, List.cons_lt_cons_iff, ih b, List.cons.injEq]
      constructor
      · rintro (h | ⟨h, h' | h'⟩)
        · exact .inl (.inl (by omega))
        · exact .inl (.inr ⟨by omega, h'⟩)
        · exact .inr ⟨⟨by omega, h'.1⟩, h'.2⟩
      · rintro ((h | ⟨h, h'⟩) | ⟨⟨h, h'⟩, h''⟩)
        · exact .inl (by omega)
        · exact .inr ⟨by omega, .inl h'⟩
        · exact .inr ⟨by omega, .inr ⟨h', h''⟩⟩

/-- Keys compare by the address first. -/
theorem key_lt_iff (l k : Location) :
    l.key < k.key ↔ l.home < k.home ∨ l.home = k.home ∧ l.rank < k.rank := by
  rw [key_eq, key_eq, keyed_lt_iff]

theorem key_injective : Function.Injective key := by
  intro l k h
  have hlk : ¬l.key < k.key := by rw [h]; exact List.lt_irrefl _
  have hkl : ¬k.key < l.key := by rw [h]; exact List.lt_irrefl _
  rw [key_lt_iff, not_or, not_and] at hlk hkl
  have hhome : l.home = k.home := le_antisymm (not_lt.1 hkl.1) (not_lt.1 hlk.1)
  exact eq_of_home_rank hhome (le_antisymm (not_lt.1 (hkl.2 hhome.symm)) (not_lt.1 (hlk.2 hhome)))

end Location

def Node.at? (n : Node) : List Nat → Option Node
  | [] => some n
  | i :: rest => n.children[i]?.bind fun c => c.at? rest

theorem Node.at?_append (n : Node) (a b : List Nat) : n.at? (a ++ b) = (n.at? a).bind (·.at? b) := by
  induction a generalizing n with
  | nil => rfl
  | cons i a ih =>
    rw [List.cons_append, at?, at?]
    cases n.children[i]? with
    | none => rfl
    | some c => exact ih c

theorem nodeAt?_cons (ns : List Node) (i : Nat) (rest : List Nat) :
    nodeAt? ns (i :: rest) = ns[i]?.bind (·.at? rest) := by
  induction rest generalizing ns i with
  | nil =>
    rw [nodeAt?]
    cases ns[i]? <;> rfl
  | cons j rest ih =>
    rw [nodeAt?]
    · cases ns[i]? with
      | none => rfl
      | some n => exact ih n.children j
    · intro h
      cases h

theorem mem_singleton_iff_at? {n : Node} (hn : n.children = []) (address x : List Nat) :
    x ∈ [address] ↔ ∃ rest, x = address ++ rest ∧ (n.at? rest).isSome = true := by
  rw [List.mem_singleton]
  constructor
  · intro h
    exact ⟨[], by simpa using h, rfl⟩
  · rintro ⟨rest, rfl, h⟩
    cases rest with
    | nil => simp
    | cons i rest =>
      rw [Node.at?, hn] at h
      cases h

mutual

/-- A node is listed with all nodes below it. -/
theorem mem_addresses (address x : List Nat) :
    (n : Node) → (x ∈ addresses address n ↔ ∃ rest, x = address ++ rest ∧ (n.at? rest).isSome = true)
  | .element name bs as children => by
    rw [addresses, List.mem_cons, mem_addressesFrom address x children 0]
    constructor
    · rintro (rfl | ⟨i, rest, rfl, h⟩)
      · exact ⟨[], by simp, rfl⟩
      · exact ⟨i :: rest, by simp, by rwa [nodeAt?_cons] at h⟩
    · rintro ⟨rest, hx, h⟩
      cases rest with
      | nil => exact .inl (by simpa using hx)
      | cons i rest => exact .inr ⟨i, rest, by simpa using hx, by rw [nodeAt?_cons]; exact h⟩
  | .text value => mem_singleton_iff_at? rfl address x
  | .comment value => mem_singleton_iff_at? rfl address x
  | .instruction target content => mem_singleton_iff_at? rfl address x

theorem mem_addressesFrom (parent x : List Nat) :
    (ns : List Node) → (i : Nat) → (x ∈ addressesFrom parent i ns ↔
      ∃ j rest, x = parent ++ (i + j) :: rest ∧ (nodeAt? ns (j :: rest)).isSome = true)
  | [], i => by simp [addressesFrom, nodeAt?_cons]
  | n :: ns, i => by
    rw [addressesFrom, List.mem_append, mem_addresses (parent ++ [i]) x n,
      mem_addressesFrom parent x ns (i + 1)]
    simp only [nodeAt?_cons]
    constructor
    · rintro (⟨rest, rfl, h⟩ | ⟨j, rest, rfl, h⟩)
      · exact ⟨0, rest, by simp, h⟩
      · exact ⟨j + 1, rest, by simp; omega, h⟩
    · rintro ⟨j, rest, hx, h⟩
      cases j with
      | zero => exact .inl ⟨rest, by simpa using hx, h⟩
      | succ j => exact .inr ⟨j, rest, by rw [hx, Nat.add_assoc, Nat.add_comm 1 j], h⟩

end

mutual

theorem addresses_increasing (address : List Nat) :
    (n : Node) → (addresses address n).Pairwise (· < ·)
  | .element name bs as children => by
    rw [addresses, List.pairwise_cons]
    refine ⟨fun x hx => ?_, addressesFrom_increasing address children 0⟩
    obtain ⟨i, rest, rfl, -⟩ := (mem_addressesFrom address x children 0).1 hx
    have hlt : address ++ [] < address ++ (0 + i) :: rest := List.append_left_lt (List.nil_lt_cons ..)
    rwa [List.append_nil] at hlt
  | .text _ => List.pairwise_singleton ..
  | .comment _ => List.pairwise_singleton ..
  | .instruction .. => List.pairwise_singleton ..

theorem addressesFrom_increasing (parent : List Nat) :
    (ns : List Node) → (i : Nat) → (addressesFrom parent i ns).Pairwise (· < ·)
  | [], _ => .nil
  | n :: ns, i => by
    rw [addressesFrom, List.pairwise_append]
    refine ⟨addresses_increasing (parent ++ [i]) n, addressesFrom_increasing parent ns (i + 1), ?_⟩
    intro x hx y hy
    obtain ⟨rest, rfl, -⟩ := (mem_addresses (parent ++ [i]) x n).1 hx
    obtain ⟨j, rest', rfl, -⟩ := (mem_addressesFrom parent y ns (i + 1)).1 hy
    rw [List.append_assoc]
    exact List.append_left_lt (List.cons_lt_cons_iff.2 (.inl (by omega)))

end

namespace Document

def holds (d : Document) : Location → Bool
  | .node address => address.isEmpty || (d.node? address).isSome
  | .attr owner index => (d.attribute? owner index).isSome

def order (d : Document) (l : Location) : Nat ×ₗ Nat :=
  toLex ((d.addressesFrom []).idxOf l.home, l.rank)

variable {d : Document}

theorem node?_append {address rest : List Nat} (ha : address ≠ []) :
    d.node? (address ++ rest) = (d.node? address).bind (·.at? rest) := by
  cases address with
  | nil => contradiction
  | cons i address =>
    rw [node?, node?, List.cons_append, nodeAt?_cons, nodeAt?_cons]
    cases d.nodes[i]? with
    | none => rfl
    | some n => exact n.at?_append address rest

/-- The listing from a node on has the nodes of the document that are in it. -/
theorem mem_addressesFrom {address : List Nat} (h : d.holds (.node address) = true) (x : List Nat) :
    x ∈ d.addressesFrom address ↔ address <+: x ∧ d.holds (.node x) = true := by
  cases address with
  | nil =>
    rw [addressesFrom, List.mem_cons, Xml.mem_addressesFrom]
    cases x with
    | nil => simp [holds]
    | cons i rest => simp [holds, node?]
  | cons i address =>
    simp only [holds, List.isEmpty_cons, Bool.false_or] at h
    obtain ⟨n, hn⟩ := Option.isSome_iff_exists.1 h
    rw [addressesFrom, hn, Option.map_some, Option.getD_some, mem_addresses]
    · constructor
      · rintro ⟨rest, rfl, hr⟩
        refine ⟨List.prefix_append .., ?_⟩
        rw [holds, node?_append (by simp), hn, Option.bind_some, hr, Bool.or_true]
      · rintro ⟨⟨rest, rfl⟩, hx⟩
        rw [holds, node?_append (by simp), hn, Option.bind_some] at hx
        exact ⟨rest, rfl, by simpa using hx⟩
    · intro h
      cases h

theorem addressesFrom_increasing (d : Document) (address : List Nat) :
    (d.addressesFrom address).Pairwise (· < ·) := by
  cases address with
  | nil =>
    rw [addressesFrom, List.pairwise_cons]
    refine ⟨fun x hx => ?_, Xml.addressesFrom_increasing [] d.nodes 0⟩
    obtain ⟨i, rest, rfl, -⟩ := (Xml.mem_addressesFrom [] x d.nodes 0).1 hx
    exact List.nil_lt_cons ..
  | cons i address =>
    rw [addressesFrom]
    · cases d.node? (i :: address) with
      | none => exact List.pairwise_singleton ..
      | some n => exact addresses_increasing (i :: address) n
    · intro h
      cases h

theorem holds_home {l : Location} (h : d.holds l = true) : d.holds (.node l.home) = true := by
  cases l with
  | node address => exact h
  | attr owner index =>
    rw [holds, attribute?, attributesAt] at h
    cases hn : d.node? owner with
    | none =>
      rw [hn] at h
      cases h
    | some n => simp [Location.home, holds, hn]

theorem home_mem {l : Location} (h : d.holds l = true) : l.home ∈ d.addressesFrom [] :=
  (mem_addressesFrom rfl _).2 ⟨List.nil_prefix, holds_home h⟩

/-- The listing of the document numbers addresses as they compare. -/
theorem idxOf_lt_iff {a b : List Nat} (ha : a ∈ d.addressesFrom []) (hb : b ∈ d.addressesFrom []) :
    (d.addressesFrom []).idxOf a < (d.addressesFrom []).idxOf b ↔ a < b := by
  have hmono := (d.addressesFrom_increasing []).sortedLT.strictMono_get
  have hi := List.idxOf_lt_length_iff.2 ha
  have hj := List.idxOf_lt_length_iff.2 hb
  have h := hmono.lt_iff_lt (a := ⟨_, hi⟩) (b := ⟨_, hj⟩)
  simpa using h.symm

theorem order_lt_iff {l k : Location} (hl : d.holds l = true) (hk : d.holds k = true) :
    d.order l < d.order k ↔ l.key < k.key := by
  rw [order, order, Prod.Lex.toLex_lt_toLex, Location.key_lt_iff, idxOf_lt_iff (home_mem hl) (home_mem hk),
    List.idxOf_inj (home_mem hl)]

/-- No two places of a document have the same number. -/
theorem order_injOn : Set.InjOn d.order { l | d.holds l = true } := by
  intro l hl k hk h
  have hlex := toLex.injective h
  exact Location.eq_of_home_rank ((List.idxOf_inj (home_mem hl)).1 (congrArg Prod.fst hlex))
    (congrArg Prod.snd hlex)

end Document

end Tabulate.Xml

namespace Tabulate

open Xml

theorem addressLe_iff (a b : List Nat) : addressLe a b = true ↔ ¬b < a := by
  induction a generalizing b with
  | nil => simp [addressLe]
  | cons i a ih =>
    cases b with
    | nil => simp [addressLe]
    | cons j b =>
      rw [addressLe, List.cons_lt_cons_iff, Bool.or_eq_true, Bool.and_eq_true, ih b, decide_eq_true_eq,
        decide_eq_true_eq]
      constructor
      · rintro (h | ⟨h, h'⟩) (hji | ⟨hji, hba⟩)
        · omega
        · omega
        · omega
        · exact h' hba
      · intro h
        rw [not_or, not_and] at h
        by_cases hij : i < j
        · exact .inl hij
        · exact .inr ⟨by omega, h.2 (by omega)⟩

namespace inOrder

theorem mem_dropRepeats (l : Location) (ls : List Location) : l ∈ dropRepeats ls ↔ l ∈ ls := by
  induction ls with
  | nil => rfl
  | cons k ls ih =>
    rw [dropRepeats, List.mem_cons, ← ih]
    cases dropRepeats ls with
    | nil => simp
    | cons j js =>
      dsimp only
      split
      · next h => simp [h]
      · simp

theorem dropRepeats_increasing {ls : List Location} (h : ls.Pairwise fun a b => ¬b.key < a.key) :
    (dropRepeats ls).Pairwise fun a b => a.key < b.key := by
  induction ls with
  | nil => exact .nil
  | cons k ls ih =>
    rw [List.pairwise_cons] at h
    have hmem (l : Location) := mem_dropRepeats l ls
    have hinc := ih h.2
    rw [dropRepeats]
    cases hls : dropRepeats ls with
    | nil => exact List.pairwise_singleton ..
    | cons j js =>
      rw [hls] at hmem hinc
      dsimp only
      split
      · exact hinc
      · next hne =>
        -- Keys of different places differ, so the head is below the next place and so below all.
        have hkj : k.key < j.key :=
          lt_of_le_of_ne (not_lt.1 (h.1 j ((hmem j).1 (by simp)))) fun h => hne (Location.key_injective h)
        refine List.pairwise_cons.2 ⟨fun l hl => ?_, hinc⟩
        rcases List.mem_cons.1 hl with rfl | hl
        · exact hkj
        · exact hkj.trans ((List.pairwise_cons.1 hinc).1 l hl)

end inOrder

theorem mem_inOrder (l : Location) (ls : List Location) : l ∈ inOrder ls ↔ l ∈ ls := by
  rw [inOrder, inOrder.mem_dropRepeats, List.mem_mergeSort]

theorem inOrder_increasing (ls : List Location) : (inOrder ls).Pairwise fun a b => a.key < b.key := by
  rw [inOrder]
  apply inOrder.dropRepeats_increasing
  simp only [← addressLe_iff]
  apply List.pairwise_mergeSort
  · intro a b c hab hbc
    rw [addressLe_iff] at hab hbc ⊢
    exact not_lt.2 ((not_lt.1 hab).trans (not_lt.1 hbc))
  · intro a b
    rw [Bool.or_eq_true, addressLe_iff, addressLe_iff, not_lt, not_lt]
    exact le_total ..

end Tabulate
