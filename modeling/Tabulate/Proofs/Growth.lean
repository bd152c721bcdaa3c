import Tabulate.Proofs.Declarations
import Tabulate.Schema.Loader
import Mathlib.Data.List.Forall2
import Mathlib.Data.List.Induction

/-! Tables and columns stand in the order of their first declaration. What is declared behind a schema
therefore only adds to its layouts: the old tables come first, and the old columns come first in them. -/
namespace Tabulate

namespace TableLayout

theorem eraseDups_concat (cs : List String) (c : String) :
    (cs ++ [c]).eraseDups = if c ∈ cs then cs.eraseDups else cs.eraseDups ++ [c] := by
  rw [List.eraseDups_append]
  by_cases h : c ∈ cs
  · simp [List.removeAll, h]
  · simp [List.removeAll, h, List.eraseDups_cons]

theorem addColumns_eraseDups (cs ds : List String) : addColumns cs.eraseDups ds = (cs ++ ds).eraseDups := by
  induction ds generalizing cs with
  | nil => rw [addColumns, List.append_nil]
  | cons d ds ih =>
    have hd : (if cs.eraseDups.contains d then cs.eraseDups else cs.eraseDups ++ [d]) = (cs ++ [d]).eraseDups := by
      simp [eraseDups_concat]
    rw [addColumns, hd, ih, List.append_assoc, List.singleton_append]

theorem columns_ofColumns (table : String) (cs : List String) : (ofColumns table cs).columns = cs.eraseDups :=
  addColumns_eraseDups [] cs

theorem nodup_eraseDups (cs : List String) : cs.eraseDups.Nodup := by
  rw [← columns_ofColumns "" cs]
  exact nodup_addColumns .nil cs

theorem keyedById_ofColumns (table : String) (cs : List String) : (ofColumns table cs).KeyedById :=
  keyedById_add (l := ⟨table, [], none⟩) rfl cs

/-- Columns that are taken in one after another are taken in at once. -/
theorem add_ofColumns (table : String) (cs ds : List String) :
    (ofColumns table cs).add ds = ofColumns table (cs ++ ds) := by
  have hcolumns : ((ofColumns table cs).add ds).columns = (ofColumns table (cs ++ ds)).columns := by
    rw [columns_ofColumns, ← addColumns_eraseDups, ← columns_ofColumns table]
    rfl
  have hkey : ((ofColumns table cs).add ds).primaryKey = (ofColumns table (cs ++ ds)).primaryKey := by
    rw [keyedById_add (keyedById_ofColumns table cs) ds, keyedById_ofColumns table (cs ++ ds), hcolumns]
  exact (mk.injEq ..).mpr ⟨rfl, hcolumns, hkey⟩

def mentioned (ts : List (String × List String)) (table : String) : List String :=
  (ts.filter (·.1 = table)).flatMap (·.2)

theorem mentioned_append (ts us : List (String × List String)) (table : String) :
    mentioned (ts ++ us) table = mentioned ts table ++ mentioned us table := by
  rw [mentioned, List.filter_append, List.flatMap_append, mentioned, mentioned]

theorem mentioned_concat (ts : List (String × List String)) (t : String × List String) (table : String) :
    mentioned (ts ++ [t]) table = if t.1 = table then mentioned ts table ++ t.2 else mentioned ts table := by
  rw [mentioned_append]
  by_cases h : t.1 = table
  · simp [mentioned, h]
  · simp [mentioned, h]

theorem addTable_map {layout : String → TableLayout} (hname : ∀ table, (layout table).name = table)
    {tables : List String} (hn : tables.Nodup) (table : String) (cs : List String) :
    addTable (tables.map layout) table cs =
      tables.map (fun k => if table = k then (layout k).add cs else layout k) ++
        if table ∈ tables then [] else [ofColumns table cs] := by
  induction tables with
  | nil => simp [addTable]
  | cons k tables ih =>
    obtain ⟨hk, hn⟩ := List.nodup_cons.1 hn
    rw [List.map_cons, addTable, hname]
    by_cases h : k = table
    · subst h
      have hrest : tables.map (fun j => if k = j then (layout j).add cs else layout j) = tables.map layout :=
        List.map_congr_left fun j hj => if_neg fun (he : k = j) => hk (he ▸ hj)
      simp [hrest]
    · rw [if_neg h, ih hn]
      simp [Ne.symm h]

/-- Every table is listed where it is first mentioned, with each of its columns where that is. -/
theorem addTables_nil (ts : List (String × List String)) :
    addTables [] ts = (ts.map (·.1)).eraseDups.map fun table => ofColumns table (mentioned ts table) := by
  induction ts using List.reverseRecOn with
  | nil => rfl
  | append_singleton ts t ih =>
    have hstep : addTables [] (ts ++ [t]) = addTable (addTables [] ts) t.1 t.2 := by
      rw [addTables, List.foldl_append]
      rfl
    have hlayout (k : String) : ofColumns k (mentioned (ts ++ [t]) k) =
        if t.1 = k then (ofColumns k (mentioned ts k)).add t.2 else ofColumns k (mentioned ts k) := by
      rw [mentioned_concat, add_ofColumns]
      split <;> rfl
    rw [hstep, ih, addTable_map (fun _ => rfl) (nodup_eraseDups _), List.map_append, List.map_singleton,
      eraseDups_concat]
    simp only [hlayout, List.mem_eraseDups]
    split
    · rw [List.append_nil]
    · next hnew =>
      have hnone : mentioned ts t.1 = [] := by
        rw [mentioned, List.filter_eq_nil_iff.2 fun u hu => ?_]
        · rfl
        · simpa using fun he : u.1 = t.1 => hnew (List.mem_map.2 ⟨u, hu, he⟩)
      rw [List.map_append, List.map_singleton, if_pos rfl, add_ofColumns, hnone, List.nil_append]

/-- A later layout of the same table: it has more columns behind those that were there, and its primary
key stays. -/
structure Extends (l k : TableLayout) : Prop where
  name : k.name = l.name
  columns : l.columns <+: k.columns
  primaryKey : l.primaryKey = some idColumn → k.primaryKey = some idColumn

theorem extends_ofColumns (table : String) (cs ds : List String) :
    (ofColumns table cs).Extends (ofColumns table (cs ++ ds)) where
  name := rfl
  columns := by
    rw [columns_ofColumns, columns_ofColumns, List.eraseDups_append]
    exact List.prefix_append _ _
  primaryKey h := by
    rw [← add_ofColumns, add]
    dsimp only
    rw [h, ite_self]

/-- Layouts after more was declared: the old ones come first, each extended, and new ones behind them. -/
def Grown (ls ks : List TableLayout) : Prop :=
  ∃ kept added, ks = kept ++ added ∧ List.Forall₂ Extends ls kept

theorem grown_addTables (ts us : List (String × List String)) :
    Grown (addTables [] ts) (addTables [] (ts ++ us)) := by
  rw [addTables_nil, addTables_nil, List.map_append, List.eraseDups_append, List.map_append]
  refine ⟨_, _, rfl, ?_⟩
  rw [List.forall₂_map_left_iff, List.forall₂_map_right_iff, List.forall₂_same]
  intro table _
  rw [mentioned_append]
  exact extends_ofColumns table _ _

end TableLayout

namespace Schema

theorem paths_of_addEntry {s t : Schema} {key value : Value} (h : s.addEntry key value = .ok t) :
    s.paths <+: t.paths := by
  rw [addEntry] at h
  split at h
  · cases h
  · split at h
    · split at h
      · cases h
        exact List.prefix_rfl
      · cases h
    · split at h
      · cases h
        exact List.prefix_rfl
      · cases h
        exact List.prefix_append _ _

theorem paths_of_addEntries {es : List (Value × Value)} {s t : Schema}
    (h : es.foldlM (fun s e => s.addEntry e.1 e.2) s = .ok t) : s.paths <+: t.paths := by
  induction es generalizing s with
  | nil =>
    cases h
    exact List.prefix_rfl
  | cons e es ih =>
    rw [List.foldlM_cons] at h
    cases hentry : s.addEntry e.1 e.2 with
    | error fault =>
      rw [hentry] at h
      cases h
    | ok u =>
      rw [hentry] at h
      exact (paths_of_addEntry hentry).trans (ih h)

/-- A configuration that goes on behind another one has the paths of that one first. -/
theorem paths_of_longer {es more : List (Value × Value)} {s t : Schema} (h : ofValue (.mapping es) = .ok s)
    (hmore : ofValue (.mapping (es ++ more)) = .ok t) : s.paths <+: t.paths := by
  rw [ofValue] at h hmore
  rw [List.foldlM_append, h] at hmore
  exact paths_of_addEntries hmore

def declaredColumns (s : Schema) (table : String) : List String :=
  (s.declarations.filter (·.entity.table = table)).flatMap Declaration.columns

theorem mentioned_tables (s : Schema) (table : String) :
    TableLayout.mentioned s.tables table = s.declaredColumns table := by
  rw [tables_eq_map, TableLayout.mentioned, List.filter_map, List.flatMap_map]
  rfl

theorem tables_of_prefix {s t : Schema} (h : s.paths <+: t.paths) : ∃ more, t.tables = s.tables ++ more := by
  obtain ⟨more, hpaths⟩ := h
  exact ⟨_, by rw [tables, ← hpaths, List.flatMap_append, tables]⟩

/-- The layouts of a schema are those of the tables that it declares, in the order of the first declaration
of each, and a layout has the columns of all declarations of its table in the order of their first
declaration. No table and no column of a table is listed twice, and `id` is the primary key where it is a
column. A schema that goes on behind another one keeps its layouts, but for new tables behind the old ones
and new columns behind the old ones; so does a configuration that goes on behind another one. -/
theorem layouts_grow {schema : Schema} {ls : List TableLayout} (h : schema.layouts = .ok ls) :
    ls = (schema.declarations.map (·.entity.table)).eraseDups.map
        (fun table => .ofColumns table (schema.declaredColumns table)) ∧
      (ls.map TableLayout.name).Nodup ∧
      (∀ l ∈ ls, l.columns = (schema.declaredColumns l.name).eraseDups ∧ l.columns.Nodup ∧
        l.primaryKey = if idColumn ∈ l.columns then some idColumn else none) ∧
      (∀ (extended : Schema) (ks : List TableLayout), schema.paths <+: extended.paths →
        extended.layouts = .ok ks → TableLayout.Grown ls ks) ∧
      ∀ (es more : List (Value × Value)) (extended : Schema), ofValue (.mapping es) = .ok schema →
        ofValue (.mapping (es ++ more)) = .ok extended → schema.paths <+: extended.paths := by
  have hls := layouts_eq_ok h
  have hform := hls.trans (TableLayout.addTables_nil schema.tables)
  simp only [mentioned_tables] at hform
  rw [schema.tables_eq_map, List.map_map] at hform
  refine ⟨hform, hls ▸ TableLayout.nodup_names_addTables .nil, fun l hl => ⟨?_, ?_, ?_⟩, ?_, ?_⟩
  · rw [hform] at hl
    obtain ⟨table, -, rfl⟩ := List.mem_map.1 hl
    exact TableLayout.columns_ofColumns table _
  · exact nodup_columns_of_layout h hl
  · exact keyedById_of_layout h hl
  · intro extended ks hpaths hks
    obtain ⟨more, htables⟩ := tables_of_prefix hpaths
    rw [hls, layouts_eq_ok hks, htables]
    exact TableLayout.grown_addTables schema.tables more
  · exact fun es more extended hes hmore => paths_of_longer hes hmore

def singleSchema : Schema where
  paths := [("single", .entity ⟨"release", none, none⟩ [("title", .column "title"),
    ("b_side", .entity ⟨"release", none, none⟩ [(".", .column "title"), ("@length", .column "length")])])]

def singleAlbumSchema : Schema where
  paths := singleSchema.paths ++ [("album", .entity ⟨"release", some (.single "title"), some "file"⟩
    [("label", .column "label"), ("title", .column "title"),
      ("track", .entity ⟨"track", none, none⟩ [(".", .column "name")])])]

theorem layouts_grow_singles :
    let single : List TableLayout := [⟨"release", ["id", "release_id", "title", "length"], some "id"⟩]
    let both : List TableLayout :=
      [⟨"release", ["id", "release_id", "title", "length", "file", "label"], some "id"⟩,
        ⟨"track", ["id", "release_id", "name"], some "id"⟩]
    singleSchema.layouts = .ok single ∧ singleAlbumSchema.layouts = .ok both ∧
      (single.map TableLayout.name).Nodup ∧ TableLayout.Grown single both := by
  intro single both
  have hsingle : singleSchema.layouts = .ok single := by rfl
  have hboth : singleAlbumSchema.layouts = .ok both := by rfl
  obtain ⟨-, hnodup, -, hgrown, -⟩ := layouts_grow hsingle
  exact ⟨hsingle, hboth, hnodup, hgrown singleAlbumSchema both (List.prefix_append _ _) hboth⟩

end Schema

end Tabulate
