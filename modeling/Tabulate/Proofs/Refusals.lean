import Tabulate.Proofs.Effects
import Tabulate.Record.Tabulator

/-! Why a walk breaks off. It follows the paths of the schema from the document element and from every
element that an entity is reached with; which these are does not depend on whether the walk gets there. It
fails where one of them cannot be read, where a key is not found once, and where a node that is none is
reached. -/
namespace Tabulate

open Effects
open Xml (Document Location)

/-- Whether a node is another one, or has it among its alternatives. -/
inductive SchemaNode.Offers : SchemaNode → SchemaNode → Prop
  | self (n : SchemaNode) : Offers n n
  | among {nodes : List SchemaNode} {n k : SchemaNode} : n ∈ nodes → Offers n k →
      Offers (.alternatives nodes) k

theorem SchemaNode.Offers.trans {n k i : SchemaNode} (h : n.Offers k) (hk : k.Offers i) : n.Offers i := by
  induction h with
  | self => exact hk
  | among hmem _ ih => exact .among hmem (ih hk)

namespace Source

def found (s : Source) (path : String) (l : Location) : List Location :=
  (s.document.resolve s.namespaces path l).toOption.getD []

variable (s : Source) (schema : Schema)

/-- An entity with its fields and an element that matches its path, from the document element or from an
element that an entity around it is reached with. -/
inductive Reached : Entity → List (String × SchemaNode) → Location → Prop
  | top {path : String} {n : SchemaNode} {e : Entity} {fields : List (String × SchemaNode)} {l : Location} :
      (path, n) ∈ schema.paths → l ∈ s.found path s.document.element → n.Offers (.entity e fields) →
      Reached e fields l
  | nested {outer e : Entity} {around fields : List (String × SchemaNode)} {path : String} {n : SchemaNode}
      {k l : Location} :
      Reached outer around k → (path, n) ∈ around → l ∈ s.found path k → n.Offers (.entity e fields) →
      Reached e fields l

def Follows (l : Location) (path : String) (n : SchemaNode) : Prop :=
  (l = s.document.element ∧ (path, n) ∈ schema.paths) ∨
    ∃ e fields, s.Reached schema e fields l ∧ (path, n) ∈ fields

/-- A document that fits a schema: every path can be read, every component of a key is found once, and no
node that is none is reached with a match. -/
structure Fits : Prop where
  path : ∀ l path n, s.Follows schema l path n → ∃ ls, s.document.resolve s.namespaces path l = .ok ls
  key : ∀ e fields l, s.Reached schema e fields l → ∀ key ∈ e.primaryKey, ∀ path ∈ key.components,
    ∃ place, s.document.resolve s.namespaces path l = .ok [place]
  node : ∀ l path n, s.Follows schema l path n → ∀ description, n.Offers (.invalid description) →
    s.found path l = []

end Source

/-- One thing that can go wrong on a walk: a path that is followed from a place, a component of the key of an
element, or a node that is none and has a match. -/
inductive Hazard where
  | path (l : Location) (text : String)
  | key (l : Location) (text : String)
  | node (text description : String)

def Hazard.error? (s : Source) : Hazard → Option DocumentError
  | .path l text =>
    match s.document.resolve s.namespaces text l with
    | .ok _ => none
    | .error e => some (.document (.invalidNode text e.message) {})
  | .key l text =>
    match s.document.keyPart s.namespaces l text with
    | .ok _ => none
    | .error e => some e
  | .node text description => some (.document (.invalidNode text description) {})

def Entity.hazards (e : Entity) (l : Location) : List Hazard :=
  ((e.primaryKey.map PrimaryKey.components).getD []).map (.key l)

mutual

/-- What can go wrong at the matches of a node, one match after the other, the key of an element before its
fields. -/
def SchemaNode.hazards (s : Source) (path : String) : SchemaNode → List Location → List Hazard
  | .column _, _ => []
  | .field .., _ => []
  | .entity e fields, ls => ls.flatMap fun l => e.hazards l ++ fieldHazards s l fields
  | .alternatives nodes, ls => ls.flatMap fun l => eachHazards s path l nodes
  | .invalid description, ls => if ls.isEmpty then [] else [.node path description]
termination_by structural n => n

def eachHazards (s : Source) (path : String) (l : Location) : List SchemaNode → List Hazard
  | [] => []
  | n :: ns => n.hazards s path [l] ++ eachHazards s path l ns
termination_by structural ns => ns

def fieldHazards (s : Source) (l : Location) : List (String × SchemaNode) → List Hazard
  | [] => []
  | (path, n) :: fs => .path l path :: n.hazards s path (s.found path l) ++ fieldHazards s l fs
termination_by structural fs => fs

end

def Source.hazards (s : Source) (schema : Schema) : List Hazard := fieldHazards s s.document.element schema.paths

def Source.Arises (s : Source) (schema : Schema) : Hazard → Prop
  | .path l text => ∃ n, s.Follows schema l text n
  | .key l text => ∃ e fields, s.Reached schema e fields l ∧ ∃ key ∈ e.primaryKey, text ∈ key.components
  | .node text description => ∃ l n, s.Follows schema l text n ∧ s.found text l ≠ [] ∧
      n.Offers (.invalid description)

section Listing
variable {s : Source} {schema : Schema} {e : Entity} {fields : List (String × SchemaNode)} {path : String}
  {n : SchemaNode} {k l : Location} {ls : List Location} {c : Hazard}

theorem Source.Follows.reached (h : s.Follows schema k path n) (hl : l ∈ s.found path k)
    (hn : n.Offers (.entity e fields)) : s.Reached schema e fields l := by
  obtain ⟨rfl, hmem⟩ | ⟨outer, around, he, hmem⟩ := h
  · exact .top hmem hl hn
  · exact .nested he hmem hl hn

theorem mem_entityHazards : c ∈ e.hazards l ↔ ∃ key ∈ e.primaryKey, ∃ text ∈ key.components, c = .key l text := by
  rw [Entity.hazards]
  cases e.primaryKey <;> simp [eq_comm]

theorem eachHazards_eq (path : String) (l : Location) (nodes : List SchemaNode) :
    eachHazards s path l nodes = nodes.flatMap fun n => n.hazards s path [l] := by
  induction nodes with
  | nil => rfl
  | cons n ns ih => rw [eachHazards, ih, List.flatMap_cons]

theorem fieldHazards_eq (l : Location) (fields : List (String × SchemaNode)) :
    fieldHazards s l fields = fields.flatMap fun f => .path l f.1 :: f.2.hazards s f.1 (s.found f.1 l) := by
  induction fields with
  | nil => rfl
  | cons f fs ih => rw [fieldHazards, ih, List.flatMap_cons]

theorem hazards_subset_fieldHazards (h : (path, n) ∈ fields) :
    .path l path :: n.hazards s path (s.found path l) ⊆ fieldHazards s l fields := by
  intro c hc
  rw [fieldHazards_eq, List.mem_flatMap]
  exact ⟨_, h, hc⟩

/-- What can go wrong at one match can go wrong at the matches together. -/
theorem hazards_single_subset (h : l ∈ ls) (n : SchemaNode) : n.hazards s path [l] ⊆ n.hazards s path ls := by
  have hflat (f : Location → List Hazard) : [l].flatMap f ⊆ ls.flatMap f := by
    intro c hc
    rw [List.flatMap_singleton] at hc
    exact List.mem_flatMap.2 ⟨l, h, hc⟩
  cases n with
  | column name => exact List.Subset.refl _
  | field name rule => exact List.Subset.refl _
  | entity e fields => exact hflat _
  | alternatives nodes => exact hflat _
  | invalid description =>
    rw [SchemaNode.hazards, SchemaNode.hazards, if_neg (by simp), if_neg (by simpa using List.ne_nil_of_mem h)]
    exact List.Subset.refl _

theorem SchemaNode.Offers.hazards_subset {k : SchemaNode} (hn : n.Offers k) (h : l ∈ ls) :
    k.hazards s path [l] ⊆ n.hazards s path ls := by
  induction hn generalizing ls with
  | self n => exact hazards_single_subset h n
  | among hmem _ ih =>
    intro c hc
    rw [SchemaNode.hazards, List.mem_flatMap]
    refine ⟨l, h, ?_⟩
    rw [eachHazards_eq, List.mem_flatMap]
    exact ⟨_, hmem, ih (List.mem_singleton_self l) hc⟩

/-- All that can go wrong at an element that is reached is in the list. -/
theorem Source.Reached.hazards_subset (h : s.Reached schema e fields l) :
    e.hazards l ++ fieldHazards s l fields ⊆ s.hazards schema := by
  have hmatch {k l : Location} {path : String} {n : SchemaNode} {e : Entity}
      {around fields : List (String × SchemaNode)} (hmem : (path, n) ∈ around) (hl : l ∈ s.found path k)
      (hn : n.Offers (.entity e fields)) :
      e.hazards l ++ fieldHazards s l fields ⊆ fieldHazards s k around := by
    intro c hc
    refine hazards_subset_fieldHazards hmem (List.mem_cons_of_mem _ (hn.hazards_subset hl ?_))
    rwa [SchemaNode.hazards, List.flatMap_singleton]
  induction h with
  | top hmem hl hn => exact hmatch hmem hl hn
  | nested _ hmem hl hn ih => exact List.Subset.trans (List.subset_append_of_subset_right _ (hmatch hmem hl hn)) ih

theorem Source.Follows.hazards_subset (h : s.Follows schema l path n) :
    .path l path :: n.hazards s path (s.found path l) ⊆ s.hazards schema := by
  obtain ⟨rfl, hmem⟩ | ⟨e, fields, he, hmem⟩ := h
  · exact hazards_subset_fieldHazards hmem
  · have houter := List.subset_append_of_subset_right (e.hazards l) (hazards_subset_fieldHazards (s := s) (l := l) hmem)
    exact List.Subset.trans houter he.hazards_subset

end Listing

section Arising
variable {s : Source} {schema : Schema}

mutual

/-- What is listed for a node arises where the node is offered. -/
theorem arises_of_mem_hazards {k : Location} {path : String} {top : SchemaNode}
    (htop : s.Follows schema k path top) :
    (n : SchemaNode) → top.Offers n → ∀ ls ⊆ s.found path k, ∀ c ∈ n.hazards s path ls, s.Arises schema c
  | .column _, _, _, _, _, hc => nomatch hc
  | .field .., _, _, _, _, hc => nomatch hc
  | .entity e fields, hn, ls, hls, c, hc => by
    obtain ⟨l, hl, hc⟩ := List.mem_flatMap.1 hc
    have he : s.Reached schema e fields l := htop.reached (hls hl) hn
    rcases List.mem_append.1 hc with hc | hc
    · obtain ⟨key, hkey, text, htext, rfl⟩ := mem_entityHazards.1 hc
      exact ⟨e, fields, he, key, hkey, htext⟩
    · exact arises_of_mem_fieldHazards fields (fun f hf => .inr ⟨e, fields, he, hf⟩) c hc
  | .alternatives nodes, hn, ls, hls, c, hc => by
    obtain ⟨l, hl, hc⟩ := List.mem_flatMap.1 hc
    exact arises_of_mem_eachHazards htop nodes (fun n hmem => hn.trans (.among hmem (.self n))) l (hls hl) c hc
  | .invalid description, hn, ls, hls, c, hc => by
    rw [SchemaNode.hazards] at hc
    split at hc
    · cases hc
    · next hne =>
      obtain ⟨l, rest, rfl⟩ := List.exists_cons_of_ne_nil (mt List.isEmpty_iff.2 hne)
      obtain rfl := List.mem_singleton.1 hc
      exact ⟨k, top, htop, List.ne_nil_of_mem (hls List.mem_cons_self), hn⟩

theorem arises_of_mem_eachHazards {k : Location} {path : String} {top : SchemaNode}
    (htop : s.Follows schema k path top) :
    (nodes : List SchemaNode) → (∀ n ∈ nodes, top.Offers n) → ∀ l ∈ s.found path k,
      ∀ c ∈ eachHazards s path l nodes, s.Arises schema c
  | [], _, _, _, _, hc => nomatch hc
  | n :: ns, hnodes, l, hl, c, hc => by
    rcases List.mem_append.1 hc with hc | hc
    · refine arises_of_mem_hazards htop n (hnodes n List.mem_cons_self) [l] ?_ c hc
      exact List.cons_subset.2 ⟨hl, List.nil_subset _⟩
    · exact arises_of_mem_eachHazards htop ns (fun k hk => hnodes k (List.mem_cons_of_mem n hk)) l hl c hc

theorem arises_of_mem_fieldHazards {l : Location} : (fields : List (String × SchemaNode)) →
    (∀ f ∈ fields, s.Follows schema l f.1 f.2) → ∀ c ∈ fieldHazards s l fields, s.Arises schema c
  | [], _, _, hc => nomatch hc
  | (path, n) :: fs, hfields, c, hc => by
    have hn : s.Follows schema l path n := hfields _ List.mem_cons_self
    rcases List.mem_append.1 hc with hc | hc
    · rcases List.mem_cons.1 hc with rfl | hc
      · exact ⟨n, hn⟩
      · exact arises_of_mem_hazards hn n (.self n) _ (List.Subset.refl _) c hc
    · exact arises_of_mem_fieldHazards fs (fun f hf => hfields f (List.mem_cons_of_mem _ hf)) c hc

end

end Arising

/-- A part of a walk that comes to what can go wrong in this order: it succeeds if nothing goes wrong, and
fails with the error of the first thing that does. -/
def Walk.Meets {α : Type} (s : Source) (cs : List Hazard) (x : Walk α) : Prop :=
  ∀ h, match cs.findSome? (Hazard.error? s) with
    | none => ∃ a h', x h = .ok a h'
    | some e => ∃ h', x h = .error e h'

namespace Walk.Meets
variable {α β : Type} {s : Source} {cs ds : List Hazard}

theorem of_ok {x : Walk α} (hx : ∀ h, ∃ a h', x h = .ok a h') : Walk.Meets s [] x := hx

theorem pure (a : α) : Walk.Meets s [] (Pure.pure a : Walk α) := of_ok fun h => ⟨a, h, rfl⟩

theorem modify (f : Harvest → Harvest) : Walk.Meets s [] (modify f : Walk Unit) := of_ok fun _ => ⟨(), _, rfl⟩

theorem bind {x : Walk α} {f : α → Walk β} (hx : x.Meets s cs)
    (hf : ∀ a h h', x h = .ok a h' → (f a).Meets s ds) : Walk.Meets s (cs ++ ds) (x >>= f) := by
  intro h
  have hx := hx h
  rw [List.findSome?_append]
  cases hcs : cs.findSome? (Hazard.error? s) with
  | some e =>
    rw [hcs] at hx
    obtain ⟨h', hx⟩ := hx
    exact ⟨h', bind_eq_error.2 (.inl hx)⟩
  | none =>
    rw [hcs] at hx
    obtain ⟨a, h', hx⟩ := hx
    have hf := hf a h h' hx h'
    rw [Option.none_or]
    cases hds : ds.findSome? (Hazard.error? s) with
    | some e =>
      rw [hds] at hf
      obtain ⟨h'', hf⟩ := hf
      exact ⟨h'', bind_eq_error.2 (.inr ⟨a, h', hx, hf⟩)⟩
    | none =>
      rw [hds] at hf
      obtain ⟨b, h'', hf⟩ := hf
      exact ⟨b, h'', bind_eq_ok.2 ⟨a, h', hx, hf⟩⟩

/-- Nothing can go wrong after the first step. -/
theorem bind_ok {x : Walk α} {f : α → Walk β} (hx : x.Meets s cs) (hf : ∀ a, (f a).Meets s []) :
    Walk.Meets s cs (x >>= f) := by
  have h := hx.bind fun a _ _ _ => hf a
  rwa [List.append_nil] at h

theorem forM {f : α → Walk PUnit} {g : α → List Hazard} (hf : ∀ a, (f a).Meets s (g a)) (xs : List α) :
    Walk.Meets s (xs.flatMap g) (xs.forM f) := by
  induction xs with
  | nil => exact pure _
  | cons x xs ih => exact bind (hf x) fun _ _ _ _ => ih

theorem foldlM {f : β → α → Walk β} {g : α → List Hazard} (hf : ∀ b a, (f b a).Meets s (g a)) (xs : List α)
    (b : β) : Walk.Meets s (xs.flatMap g) (xs.foldlM f b) := by
  induction xs generalizing b with
  | nil => exact pure _
  | cons x xs ih => exact bind (hf b x) fun b' _ _ _ => ih b'

theorem discard {x : Walk α} (hx : x.Meets s cs) : Walk.Meets s cs (discard x : Walk PUnit) := by
  rw [discard_eq_bind]
  exact hx.bind_ok fun _ => pure _

end Walk.Meets

open Walk (Meets)

section Walking
variable (s : Source)

theorem matchesOf_meets (path : String) (n : SchemaNode) (l : Location) :
    (s.matchesOf path n l).Meets s [.path l path] := by
  intro h
  rw [List.findSome?_singleton, Hazard.error?, Source.matchesOf]
  cases s.document.resolve s.namespaces path l with
  | error e => exact ⟨h, rfl⟩
  | ok ls =>
    dsimp only
    split
    · exact ⟨ls, _, rfl⟩
    · exact ⟨ls, h, rfl⟩

theorem eq_found_of_matchesOf {path : String} {n : SchemaNode} {l : Location} {ls : List Location}
    {h h' : Harvest} (hls : s.matchesOf path n l h = .ok ls h') : ls = s.found path l := by
  rw [Source.matchesOf] at hls
  rw [Source.found]
  cases hr : s.document.resolve s.namespaces path l with
  | error e =>
    rw [hr] at hls
    cases hls
  | ok found =>
    rw [hr] at hls
    dsimp only at hls
    split at hls <;> (cases hls; rfl)

/-- The components of a key are looked for in turn. -/
theorem findSome?_components (l : Location) (texts : List String) :
    (texts.map (.key l)).findSome? (Hazard.error? s) =
      match texts.mapM (s.document.keyPart s.namespaces l) with
      | .ok _ => none
      | .error e => some e := by
  induction texts with
  | nil => rfl
  | cons text texts ih =>
    rw [List.map_cons, List.findSome?_cons, ih, Hazard.error?, List.mapM_cons]
    cases s.document.keyPart s.namespaces l text with
    | error e => rfl
    | ok part => cases texts.mapM (s.document.keyPart s.namespaces l) <;> rfl

theorem recordKey_meets (e : Entity) (parent : Option Parent) (l : Location) :
    (s.recordKey e parent l).Meets s (e.hazards l) := by
  have hkey : Walk.Meets s (e.hazards l) (MonadExcept.ofExcept (s.explicitKey e l)) := by
    intro h
    rw [Entity.hazards, Source.explicitKey]
    cases e.primaryKey with
    | none => exact ⟨none, h, rfl⟩
    | some key =>
      dsimp only [Option.map_some, Option.getD_some]
      rw [findSome?_components, Document.primaryKey]
      cases key.components.mapM (s.document.keyPart s.namespaces l) with
      | error e => exact ⟨h, rfl⟩
      | ok parts => exact ⟨_, h, rfl⟩
  refine hkey.bind_ok fun explicit => ?_
  cases explicit.filter fun key => !key.isEmpty with
  | some key => exact .pure key
  | none => exact .of_ok fun h => ⟨_, _, rfl⟩

mutual

theorem walk_meets (path : String) (parent : Option Parent) : (n : SchemaNode) → (ls : List Location) →
    (r : Record) → (n.walk s path parent ls r).Meets s (n.hazards s path ls)
  | .column _, _, _ => .pure _
  | .field .., _, _ => .pure _
  | .entity e fields, ls, r => by
    refine .bind_ok (.forM (fun l => ?_) ls) fun _ => .pure r
    refine (recordKey_meets s e parent l).bind fun key _ _ _ => ?_
    exact (walkFields_meets _ l fields _).bind_ok fun filled => .modify _
  | .alternatives nodes, ls, r => .foldlM (fun r l => walkEach_meets path parent l nodes r) ls r
  | .invalid description, ls, r => by
    intro h
    rw [SchemaNode.walk, SchemaNode.hazards]
    by_cases hls : ls.isEmpty = true
    · rw [if_pos hls, if_pos hls]
      exact ⟨r, h, rfl⟩
    · rw [if_neg hls, if_neg hls]
      exact ⟨h, rfl⟩

theorem walkEach_meets (path : String) (parent : Option Parent) (l : Location) : (ns : List SchemaNode) →
    (r : Record) → (walkEach s path parent l ns r).Meets s (eachHazards s path l ns)
  | [], r => .pure r
  | n :: ns, r => (walk_meets path parent n [l] r).bind fun r₁ _ _ _ => walkEach_meets path parent l ns r₁

theorem walkFields_meets (parent : Parent) (l : Location) : (fs : List (String × SchemaNode)) →
    (r : Record) → (walkFields s parent l fs r).Meets s (fieldHazards s l fs)
  | [], r => .pure r
  | (path, n) :: fs, r => by
    refine (matchesOf_meets s path n l).bind fun found _ _ hfound => ?_
    obtain rfl := eq_found_of_matchesOf s hfound
    exact (walk_meets path (some parent) n _ r).bind fun r₁ _ _ _ => walkFields_meets parent l fs r₁

end

end Walking

end Tabulate
