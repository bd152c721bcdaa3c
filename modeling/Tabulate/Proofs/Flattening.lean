import Tabulate.Proofs.Joining
import Tabulate.Proofs.Likeness
import Mathlib.Logic.Relation

/-! Alternatives that stand in alternatives, and lists of a single alternative. A list of alternatives is
walked match by match, so a list inside it can give its members to it, and a single member can stand for
its list: a node does the same for all matches at once as for one after the other. -/
namespace Tabulate

open Effects
open Xml (Location)
open Walk (Alike)

section Walks
variable (s : Source)

theorem walkEach_append (path : String) (parent : Option Parent) (l : Location) (ns ms : List SchemaNode)
    (r : Record) : walkEach s path parent l (ns ++ ms) r =
      walkEach s path parent l ns r >>= walkEach s path parent l ms := by
  induction ns generalizing r with
  | nil => exact (pure_bind r _).symm
  | cons n ns ih => simp only [List.cons_append, walkEach, ih, bind_assoc]

theorem walkFields_append (parent : Parent) (l : Location) (fs gs : List (String × SchemaNode)) (r : Record) :
    walkFields s parent l (fs ++ gs) r = walkFields s parent l fs r >>= walkFields s parent l gs := by
  induction fs generalizing r with
  | nil => exact (pure_bind r _).symm
  | cons f fs ih => simp only [List.cons_append, walkFields, ih, bind_assoc]

theorem SchemaNode.walk_nil (path : String) (parent : Option Parent) (n : SchemaNode) (r : Record) :
    n.walk s path parent [] r = pure r := by
  cases n with
  | column name => exact congrArg pure (Record.fill_nil r name .plain)
  | field name rule => exact congrArg pure (Record.fill_nil r name rule)
  | entity | alternatives | invalid => rfl

/-- A node does the same for all matches at once as for some of them first. -/
theorem SchemaNode.walk_append (path : String) (parent : Option Parent) (n : SchemaNode)
    (ls ks : List Location) (r : Record) :
    n.walk s path parent (ls ++ ks) r = n.walk s path parent ls r >>= n.walk s path parent ks := by
  cases n with
  | column name => simp only [walk, pure_bind, Record.fill_append, List.map_append]
  | field name rule => simp only [walk, pure_bind, Record.fill_append, List.map_append]
  | entity e fields => simp only [walk, List.forM_eq_forM, List.forM_append, bind_assoc, pure_bind]
  | alternatives nodes => exact List.foldlM_append
  | invalid description =>
    cases ls with
    | nil => exact (pure_bind r _).symm
    | cons l ls => rfl

/-- A single alternative is walked as it would be alone. -/
theorem walk_single (path : String) (parent : Option Parent) (n : SchemaNode) (ls : List Location)
    (r : Record) : (SchemaNode.alternatives [n]).walk s path parent ls r = n.walk s path parent ls r := by
  induction ls generalizing r with
  | nil => exact (n.walk_nil s path parent r).symm
  | cons l ls ih =>
    have hfirst (a : SchemaNode) (r : Record) :
        a.walk s path parent (l :: ls) r = a.walk s path parent [l] r >>= a.walk s path parent ls :=
      a.walk_append s path parent [l] ls r
    rw [hfirst, hfirst, funext ih]
    simp only [SchemaNode.walk, walkEach, List.foldlM_cons, List.foldlM_nil, bind_pure]

/-- A list in a list of alternatives is walked for one match as its members are. -/
theorem walkEach_spliced (path : String) (parent : Option Parent) (l : Location) (ns ms ks : List SchemaNode)
    (r : Record) : walkEach s path parent l (ns ++ .alternatives ms :: ks) r =
      walkEach s path parent l (ns ++ ms ++ ks) r := by
  simp only [walkEach_append, walkEach, SchemaNode.walk, List.foldlM_cons, List.foldlM_nil, bind_pure,
    bind_assoc]

end Walks

namespace SchemaNode

/-- There is one list of alternatives less: a list in a list has given its members to that one, in its
place, or a single member stands for its list. This may be done anywhere inside of a node. -/
inductive Flattens : SchemaNode → SchemaNode → Prop where
  | spliced (ns ms ks : List SchemaNode) :
    Flattens (.alternatives (ns ++ .alternatives ms :: ks)) (.alternatives (ns ++ ms ++ ks))
  | unwrapped (n : SchemaNode) : Flattens (.alternatives [n]) n
  | member {n n' : SchemaNode} (ns ks : List SchemaNode) :
    Flattens n n' → Flattens (.alternatives (ns ++ n :: ks)) (.alternatives (ns ++ n' :: ks))
  | field {n n' : SchemaNode} (e : Entity) (fs : List (String × SchemaNode)) (path : String)
    (gs : List (String × SchemaNode)) :
    Flattens n n' → Flattens (.entity e (fs ++ (path, n) :: gs)) (.entity e (fs ++ (path, n') :: gs))

/-- The nodes fill the same columns and tables, have the same first invalid node, and are walked alike. -/
structure Alike (n n' : SchemaNode) : Prop where
  columns : n.columns = n'.columns
  tables : ∀ parent, n.tables parent = n'.tables parent
  firstInvalid? : ∀ path, n.firstInvalid? path = n'.firstInvalid? path
  walk : ∀ s path parent ls r, Walk.Alike (n.walk s path parent ls r) (n'.walk s path parent ls r)

section Append
variable (ns ms : List SchemaNode) (fs gs : List (String × SchemaNode))

theorem columnsOf_append : columnsOf (ns ++ ms) = columnsOf ns ++ columnsOf ms := by
  induction ns with
  | nil => rfl
  | cons n ns ih => rw [List.cons_append, columnsOf, columnsOf, ih, List.append_assoc]

theorem tablesOf_append (parent : Option String) :
    tablesOf parent (ns ++ ms) = tablesOf parent ns ++ tablesOf parent ms := by
  induction ns with
  | nil => rfl
  | cons n ns ih => rw [List.cons_append, tablesOf, tablesOf, ih, List.append_assoc]

theorem firstInvalidOf?_append (path : String) :
    firstInvalidOf? path (ns ++ ms) = (firstInvalidOf? path ns).or (firstInvalidOf? path ms) := by
  induction ns with
  | nil => rfl
  | cons n ns ih => rw [List.cons_append, firstInvalidOf?, firstInvalidOf?, ih, Option.or_assoc]

theorem fieldTables_append (table : String) :
    fieldTables table (fs ++ gs) = fieldTables table fs ++ fieldTables table gs := by
  induction fs with
  | nil => rfl
  | cons f fs ih => rw [List.cons_append, fieldTables, fieldTables, ih, List.append_assoc]

theorem firstInvalidField?_append :
    firstInvalidField? (fs ++ gs) = (firstInvalidField? fs).or (firstInvalidField? gs) := by
  induction fs with
  | nil => rfl
  | cons f fs ih => rw [List.cons_append, firstInvalidField?, firstInvalidField?, ih, Option.or_assoc]

end Append

namespace Alike
variable {n n' : SchemaNode}

theorem spliced (ns ms ks : List SchemaNode) :
    Alike (.alternatives (ns ++ .alternatives ms :: ks)) (.alternatives (ns ++ ms ++ ks)) where
  columns := by simp only [SchemaNode.columns, columnsOf_append, columnsOf, List.append_assoc]
  tables parent := by simp only [SchemaNode.tables, tablesOf_append, tablesOf, List.append_assoc]
  firstInvalid? path := by
    simp only [SchemaNode.firstInvalid?, firstInvalidOf?_append, firstInvalidOf?, Option.or_assoc]
  walk s path parent ls r := by
    have heach := fun l => funext (walkEach_spliced s path parent l ns ms ks)
    simp only [SchemaNode.walk, heach]
    exact walk_alike s path parent (.alternatives (ns ++ ms ++ ks)) ls r

theorem unwrapped (n : SchemaNode) : Alike (.alternatives [n]) n where
  columns := by simp only [SchemaNode.columns, columnsOf, List.append_nil]
  tables parent := by simp only [SchemaNode.tables, tablesOf, List.append_nil]
  firstInvalid? path := by simp only [SchemaNode.firstInvalid?, firstInvalidOf?, Option.or_none]
  walk s path parent ls r := by
    rw [walk_single]
    exact walk_alike s path parent n ls r

theorem member (h : n.Alike n') (ns ks : List SchemaNode) :
    Alike (.alternatives (ns ++ n :: ks)) (.alternatives (ns ++ n' :: ks)) where
  columns := by simp only [SchemaNode.columns, columnsOf_append, columnsOf, h.columns]
  tables parent := by simp only [SchemaNode.tables, tablesOf_append, tablesOf, h.tables]
  firstInvalid? path := by
    simp only [SchemaNode.firstInvalid?, firstInvalidOf?_append, firstInvalidOf?, h.firstInvalid?]
  walk s path parent ls r := by
    refine .foldlM (fun r l => ?_) ls r
    rw [walkEach_append, walkEach_append]
    refine .bind (walkEach_alike s path parent l ns r) fun r₁ => ?_
    exact .bind (h.walk s path parent [l] r₁) fun r₂ => walkEach_alike s path parent l ks r₂

theorem field (h : n.Alike n') (e : Entity) (fs : List (String × SchemaNode)) (path : String)
    (gs : List (String × SchemaNode)) :
    Alike (.entity e (fs ++ (path, n) :: gs)) (.entity e (fs ++ (path, n') :: gs)) where
  columns := rfl
  tables parent := by
    simp only [SchemaNode.tables, Entity.columns, fieldColumns, fieldTables_append, fieldTables,
      List.flatMap_append, List.flatMap_cons, h.columns, h.tables]
  firstInvalid? path := by
    simp only [SchemaNode.firstInvalid?, firstInvalidField?_append, firstInvalidField?, h.firstInvalid?]
  walk s path' parent ls r := by
    refine .bind (.forM (fun l => ?_) ls) fun _ => .pure r
    refine .bind (recordKey_alike s e parent l) fun key => .bind ?_ fun filled => .push _ _
    rw [walkFields_append, walkFields_append]
    refine .bind (walkFields_alike s _ l fs _) fun r₁ => ?_
    refine .bind (matchesOf_alike s path n n' l) fun found => ?_
    exact .bind (h.walk s path _ found r₁) fun r₂ => walkFields_alike s _ l gs r₂

end Alike

theorem Flattens.alike {n n' : SchemaNode} (h : n.Flattens n') : n.Alike n' := by
  induction h with
  | spliced ns ms ks => exact .spliced ns ms ks
  | unwrapped n => exact .unwrapped n
  | member ns ks _ ih => exact ih.member ns ks
  | field e fs path gs _ ih => exact ih.field e fs path gs

def members : SchemaNode → List SchemaNode
  | .alternatives nodes => nodes
  | n => [n]

def ofMembers : List SchemaNode → SchemaNode
  | [n] => n
  | nodes => .alternatives nodes

mutual

def flattened : SchemaNode → SchemaNode
  | .entity e fields => .entity e (flattenedFields fields)
  | .alternatives nodes => ofMembers (flattenedMembers nodes)
  | .column name => .column name
  | .field name rule => .field name rule
  | .invalid description => .invalid description
termination_by structural n => n

def flattenedMembers : List SchemaNode → List SchemaNode
  | [] => []
  | n :: ns => n.flattened.members ++ flattenedMembers ns
termination_by structural ns => ns

def flattenedFields : List (String × SchemaNode) → List (String × SchemaNode)
  | [] => []
  | (path, n) :: fs => (path, n.flattened) :: flattenedFields fs
termination_by structural fs => fs

end

open Relation (ReflTransGen)

theorem flattens_ofMembers (nodes : List SchemaNode) :
    ReflTransGen Flattens (.alternatives nodes) (ofMembers nodes) := by
  match nodes with
  | [] => exact .refl
  | [n] => exact .single (.unwrapped n)
  | _ :: _ :: _ => exact .refl

theorem flattens_members (ns ks : List SchemaNode) (n : SchemaNode) :
    ReflTransGen Flattens (.alternatives (ns ++ n :: ks)) (.alternatives (ns ++ n.members ++ ks)) := by
  cases n with
  | alternatives ms => exact .single (.spliced ns ms ks)
  | column | field | entity | invalid =>
    rw [List.append_assoc]
    exact .refl

mutual

/-- The lists are done away with one by one. -/
theorem flattens_flattened : (n : SchemaNode) → ReflTransGen Flattens n n.flattened
  | .column _ => .refl
  | .field .. => .refl
  | .invalid _ => .refl
  | .entity e fields => flattens_flattenedFields e [] fields
  | .alternatives nodes => (flattens_flattenedMembers [] nodes).trans (flattens_ofMembers _)

theorem flattens_flattenedMembers (ns : List SchemaNode) : (nodes : List SchemaNode) →
    ReflTransGen Flattens (.alternatives (ns ++ nodes)) (.alternatives (ns ++ flattenedMembers nodes))
  | [] => .refl
  | n :: nodes => by
    have hmember : ReflTransGen Flattens (.alternatives (ns ++ n :: nodes))
        (.alternatives (ns ++ n.flattened :: nodes)) :=
      (flattens_flattened n).lift (fun k => alternatives (ns ++ k :: nodes)) fun _ _ h => h.member ns nodes
    have hrest := flattens_flattenedMembers (ns ++ n.flattened.members) nodes
    rw [List.append_assoc ns n.flattened.members (flattenedMembers nodes)] at hrest
    exact hmember.trans ((flattens_members ns nodes n.flattened).trans hrest)

theorem flattens_flattenedFields (e : Entity) (fs : List (String × SchemaNode)) :
    (fields : List (String × SchemaNode)) →
      ReflTransGen Flattens (.entity e (fs ++ fields)) (.entity e (fs ++ flattenedFields fields))
  | [] => .refl
  | (path, n) :: fields => by
    have hfield : ReflTransGen Flattens (.entity e (fs ++ (path, n) :: fields))
        (.entity e (fs ++ (path, n.flattened) :: fields)) :=
      (flattens_flattened n).lift (fun k => entity e (fs ++ (path, k) :: fields))
        fun _ _ h => h.field e fs path fields
    have hrest := flattens_flattenedFields e (fs ++ [(path, n.flattened)]) fields
    rw [List.append_assoc, List.append_assoc] at hrest
    exact hfield.trans hrest

end

def IsFlat (n : SchemaNode) : Prop := ∀ n', ¬n.Flattens n'

theorem isFlat_entity {e : Entity} {fields : List (String × SchemaNode)} (h : ∀ f ∈ fields, f.2.IsFlat) :
    (entity e fields).IsFlat := by
  intro n' hn'
  generalize hn : entity e fields = n at hn'
  cases hn' with
  | field e fs path gs hm =>
    cases hn
    exact h _ (List.mem_append_right fs List.mem_cons_self) _ hm
  | spliced | unwrapped | member => cases hn

theorem isFlat_alternatives {nodes : List SchemaNode} (hlength : nodes.length ≠ 1)
    (h : ∀ n ∈ nodes, n.IsFlat ∧ ∀ ms, n ≠ .alternatives ms) : (alternatives nodes).IsFlat := by
  intro n' hn'
  generalize hn : alternatives nodes = n at hn'
  cases hn' with
  | spliced ns ms ks =>
    cases hn
    exact (h (.alternatives ms) (by simp)).2 ms rfl
  | unwrapped n =>
    cases hn
    exact hlength rfl
  | member ns ks hm =>
    cases hn
    exact (h _ (by simp)).1 _ hm
  | field => cases hn

/-- The members of a flat node are flat, and none of them is a list. -/
theorem IsFlat.members {n : SchemaNode} (h : n.IsFlat) :
    ∀ m ∈ n.members, m.IsFlat ∧ ∀ ms, m ≠ .alternatives ms := by
  cases n with
  | alternatives nodes =>
    intro m hm
    obtain ⟨ns, ks, rfl⟩ := List.append_of_mem hm
    refine ⟨fun m' hm' => h _ (hm'.member ns ks), ?_⟩
    rintro ms rfl
    exact h _ (.spliced ns ms ks)
  | column | field | entity | invalid =>
    intro m hm
    obtain rfl := List.mem_singleton.1 hm
    exact ⟨h, fun ms hms => nomatch hms⟩

mutual

/-- None are left. -/
theorem isFlat_flattened : (n : SchemaNode) → n.flattened.IsFlat
  | .column _ => fun _ h => nomatch h
  | .field .. => fun _ h => nomatch h
  | .invalid _ => fun _ h => nomatch h
  | .entity e fields => isFlat_entity (isFlat_flattenedFields fields)
  | .alternatives nodes => by
    have hmembers := isFlat_flattenedMembers nodes
    show (ofMembers (flattenedMembers nodes)).IsFlat
    match flattenedMembers nodes, hmembers with
    | [], h => exact isFlat_alternatives (by simp) h
    | [n], h => exact (h n (by simp)).1
    | _ :: _ :: _, h => exact isFlat_alternatives (by simp) h

theorem isFlat_flattenedMembers : (nodes : List SchemaNode) →
    ∀ n ∈ flattenedMembers nodes, n.IsFlat ∧ ∀ ms, n ≠ .alternatives ms
  | [], _, hm => nomatch hm
  | n :: nodes, m, hm =>
    (List.mem_append.1 hm).elim ((isFlat_flattened n).members m) (isFlat_flattenedMembers nodes m)

theorem isFlat_flattenedFields : (fields : List (String × SchemaNode)) →
    ∀ f ∈ flattenedFields fields, f.2.IsFlat
  | [], _, hf => nomatch hf
  | (path, n) :: fields, f, hf => by
    rcases List.mem_cons.1 hf with rfl | hf
    · exact isFlat_flattened n
    · exact isFlat_flattenedFields fields f hf

end

end SchemaNode

namespace Schema

inductive Flattens : Schema → Schema → Prop where
  | path {n n' : SchemaNode} (root : Option String) (ps : List (String × SchemaNode)) (path : String)
    (qs : List (String × SchemaNode)) :
    n.Flattens n' → Flattens ⟨root, ps ++ (path, n) :: qs⟩ ⟨root, ps ++ (path, n') :: qs⟩

def flattened (s : Schema) : Schema := { s with paths := SchemaNode.flattenedFields s.paths }

theorem Flattens.layouts {a b : Schema} (h : a.Flattens b) : b.layouts = a.layouts := by
  cases h with
  | path root ps path qs hn =>
    simp only [Schema.layouts, Schema.tables, SchemaNode.firstInvalidField?_append,
      SchemaNode.firstInvalidField?, List.flatMap_append, List.flatMap_cons, hn.alike.firstInvalid?,
      hn.alike.tables]

theorem Flattens.walk {a b : Schema} (h : a.Flattens b) (s : Source) :
    Alike (Tabulator.walk s a) (Tabulator.walk s b) := by
  have hsame (ps : List (String × SchemaNode)) :
      Alike (ps.forM fun p => s.walkPath s.document.element p.1 p.2)
        (ps.forM fun p => s.walkPath s.document.element p.1 p.2) :=
    .forM (fun p => walkPath_alike s _ fun ls r => walk_alike s p.1 none p.2 ls r) ps
  cases h with
  | path root ps path qs hn =>
    simp only [Tabulator.walk, List.forM_eq_forM, List.forM_append, List.forM_cons]
    refine .bind (hsame ps) fun _ => .bind ?_ fun _ => hsame qs
    exact walkPath_alike s _ fun ls r => hn.alike.walk s path none ls r

open Relation (ReflTransGen)

theorem flattens_flattenedPaths (root : Option String) (ps : List (String × SchemaNode)) :
    (paths : List (String × SchemaNode)) →
      ReflTransGen Flattens ⟨root, ps ++ paths⟩ ⟨root, ps ++ SchemaNode.flattenedFields paths⟩
  | [] => .refl
  | (path, n) :: paths => by
    have hpath : ReflTransGen Flattens ⟨root, ps ++ (path, n) :: paths⟩
        ⟨root, ps ++ (path, n.flattened) :: paths⟩ :=
      n.flattens_flattened.lift (fun k => (⟨root, ps ++ (path, k) :: paths⟩ : Schema))
        fun _ _ h => .path root ps path paths h
    have hrest := flattens_flattenedPaths root (ps ++ [(path, n.flattened)]) paths
    rw [List.append_assoc, List.append_assoc] at hrest
    exact hpath.trans hrest

theorem not_flattens_flattened (s t : Schema) : ¬s.flattened.Flattens t := by
  intro h
  generalize hs : s.flattened = a at h
  cases h with
  | path root ps path qs hn =>
    have hpaths : SchemaNode.flattenedFields s.paths = ps ++ _ :: qs := congrArg Schema.paths hs
    have hall := SchemaNode.isFlat_flattenedFields s.paths
    rw [hpaths] at hall
    exact hall _ (List.mem_append_right ps List.mem_cons_self) _ hn

end Schema

/-- Lists of alternatives that stand in lists of alternatives, and lists of one alternative, can be done
away with: in however many places this is done, and so also where none are left, the schema has the same
layouts, and every walk has the same outcome but for the warnings of several matches. (The key that a
failing document is reported with is no part of the walk: only a first path that is a table by itself
gives one.) -/
theorem alternatives_flatten (schema : Schema) :
    Relation.ReflTransGen Schema.Flattens schema schema.flattened ∧
    (∀ flat, ¬schema.flattened.Flattens flat) ∧
    ∀ other, Relation.ReflTransGen Schema.Flattens schema other →
      other.layouts = schema.layouts ∧
      ∀ (s : Source) (h : Harvest),
        Walk.outcome (Tabulator.walk s other h) = Walk.outcome (Tabulator.walk s schema h) := by
  refine ⟨Schema.flattens_flattenedPaths schema.rootElement [] schema.paths, schema.not_flattens_flattened, ?_⟩
  intro other hother
  induction hother with
  | refl => exact ⟨rfl, fun s h => rfl⟩
  | tail _ hstep ih =>
    refine ⟨hstep.layouts.trans ih.1, fun s h => ?_⟩
    exact ((hstep.walk s).symm h h rfl).trans (ih.2 s h)

def nestedAlbums : Schema where
  paths := [("album", .alternatives [.entity ⟨"album", none, none⟩
    [("name", .alternatives [.column "name", .alternatives [.column "title", .alternatives []]])]])]

def plainAlbums : Schema where
  paths := [("album", .entity ⟨"album", none, none⟩
    [("name", .alternatives [.column "name", .column "title"])])]

theorem nestedAlbums_flatten :
    Relation.ReflTransGen Schema.Flattens nestedAlbums plainAlbums ∧
    plainAlbums.layouts = nestedAlbums.layouts ∧
    ∀ (s : Source) (h : Harvest),
      Walk.outcome (Tabulator.walk s plainAlbums h) = Walk.outcome (Tabulator.walk s nestedAlbums h) := by
  obtain ⟨hflattens, -, halike⟩ := alternatives_flatten nestedAlbums
  have hplain : nestedAlbums.flattened = plainAlbums := rfl
  rw [hplain] at hflattens
  exact ⟨hflattens, halike plainAlbums hflattens⟩

end Tabulate
