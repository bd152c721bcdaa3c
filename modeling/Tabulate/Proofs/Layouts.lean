import Tabulate.Schema.Layout
import Mathlib.Data.List.Nodup

/-! What the layouts of a schema hold. A layout keeps every column that was ever collected for its
table, however many entities feed the table and in whatever order they come. -/
namespace Tabulate

namespace TableLayout

theorem mem_addColumns (columns cs : List String) (c : String) :
    c ∈ addColumns columns cs ↔ c ∈ columns ∨ c ∈ cs := by
  induction cs generalizing columns with
  | nil => simp [addColumns]
  | cons a cs ih =>
    rw [addColumns, ih]
    by_cases h : a ∈ columns
    · by_cases hc : c = a <;> simp [h, hc]
    · simp [h, or_assoc]

theorem mem_columns_add (l : TableLayout) (cs : List String) (c : String) :
    c ∈ (l.add cs).columns ↔ c ∈ l.columns ∨ c ∈ cs :=
  mem_addColumns l.columns cs c

@[simp] theorem name_add (l : TableLayout) (cs : List String) : (l.add cs).name = l.name := rfl

@[simp] theorem name_ofColumns (table : String) (cs : List String) :
    (ofColumns table cs).name = table := rfl

def named? (ls : List TableLayout) (table : String) : Option TableLayout :=
  ls.find? (·.name = table)

theorem named?_eq_some {ls : List TableLayout} {table : String} {l : TableLayout} (h : named? ls table = some l) :
    l ∈ ls ∧ l.name = table :=
  ⟨List.mem_of_find?_eq_some h, by simpa using List.find?_some h⟩

theorem exists_named?_of_mem {ls : List TableLayout} {l : TableLayout} (h : l ∈ ls) :
    ∃ k, named? ls l.name = some k := by
  rw [← Option.isSome_iff_exists, named?, List.find?_isSome]
  exact ⟨l, h, by simp⟩

def extended (l? : Option TableLayout) (table : String) (cs : List String) : TableLayout :=
  match l? with
  | some l => l.add cs
  | none => ofColumns table cs

theorem named?_addTable (ls : List TableLayout) (table : String) (cs : List String) (k : String) :
    named? (addTable ls table cs) k =
      if k = table then some (extended (named? ls table) table cs) else named? ls k := by
  induction ls with
  | nil =>
    by_cases h : k = table
    · simp [named?, addTable, extended, h]
    · simp [named?, addTable, h, Ne.symm h]
  | cons l ls ih =>
    simp only [named?] at ih ⊢
    rw [addTable]
    by_cases hl : l.name = table
    · by_cases h : k = table
      · simp [hl, h, extended]
      · simp [hl, h, Ne.symm h]
    · by_cases hk : l.name = k
      · have h : k ≠ table := fun e => hl (hk.trans e)
        simp [hk, h]
      · simp [hl, hk, ih]

theorem mem_columns_extended (l? : Option TableLayout) (table : String) (cs : List String) (c : String) :
    c ∈ (extended l? table cs).columns ↔ (∃ k, l? = some k ∧ c ∈ k.columns) ∨ c ∈ cs := by
  cases l? with
  | none =>
    rw [extended, ofColumns, mem_columns_add]
    simp
  | some l =>
    rw [extended, mem_columns_add]
    simp

def Covers (ls : List TableLayout) (table : String) (cs : List String) : Prop :=
  ∃ l, named? ls table = some l ∧ ∀ c ∈ cs, c ∈ l.columns

theorem covers_addTable (ls : List TableLayout) (table : String) (cs : List String) :
    Covers (addTable ls table cs) table cs := by
  refine ⟨extended (named? ls table) table cs, by simp [named?_addTable], fun c hc => ?_⟩
  cases named? ls table with
  | none => exact (mem_columns_add _ _ _).2 (.inr hc)
  | some l => exact (mem_columns_add _ _ _).2 (.inr hc)

theorem Covers.addTable {ls : List TableLayout} {table : String} {cs : List String}
    (h : Covers ls table cs) (other : String) (ds : List String) :
    Covers (addTable ls other ds) table cs := by
  obtain ⟨l, hl, hc⟩ := h
  by_cases ht : table = other
  · subst ht
    refine ⟨l.add ds, by simp [named?_addTable, hl, extended], fun c hm => ?_⟩
    exact (mem_columns_add _ _ _).2 (.inl (hc c hm))
  · exact ⟨l, by simp [named?_addTable, ht, hl], hc⟩

def addTables (ls : List TableLayout) (ts : List (String × List String)) : List TableLayout :=
  ts.foldl (fun ls t => TableLayout.addTable ls t.1 t.2) ls

theorem Covers.addTables {ls : List TableLayout} {table : String} {cs : List String}
    (h : Covers ls table cs) (ts : List (String × List String)) :
    Covers (addTables ls ts) table cs := by
  induction ts generalizing ls with
  | nil => exact h
  | cons t ts ih => exact ih (h.addTable t.1 t.2)

theorem covers_addTables {ts : List (String × List String)} {t : String × List String}
    (h : t ∈ ts) (ls : List TableLayout) : Covers (addTables ls ts) t.1 t.2 := by
  induction ts generalizing ls with
  | nil => cases h
  | cons u ts ih =>
    rcases List.mem_cons.1 h with rfl | h
    · exact (covers_addTable ls t.1 t.2).addTables ts
    · exact ih h (TableLayout.addTable ls u.1 u.2)

/-- A layout has the columns that it had and those that were taken in of its table. -/
theorem mem_columns_addTables {ts : List (String × List String)} {ls : List TableLayout} {table : String}
    {l : TableLayout} (h : named? (addTables ls ts) table = some l) (c : String) :
    c ∈ l.columns ↔ (∃ k, named? ls table = some k ∧ c ∈ k.columns) ∨ ∃ t ∈ ts, t.1 = table ∧ c ∈ t.2 := by
  induction ts generalizing ls with
  | nil =>
    have hl : named? ls table = some l := h
    simp [hl]
  | cons t ts ih =>
    rw [ih h, named?_addTable]
    by_cases ht : table = t.1
    · rw [if_pos ht]
      simp [mem_columns_extended, or_assoc, ht]
    · rw [if_neg ht]
      simp [Ne.symm ht]

theorem mem_addTable {ls : List TableLayout} {table : String} {cs : List String} {l : TableLayout}
    (h : l ∈ addTable ls table cs) :
    l ∈ ls ∨ l = ofColumns table cs ∨ ∃ k ∈ ls, k.name = table ∧ l = k.add cs := by
  induction ls with
  | nil => exact .inr (.inl (List.mem_singleton.1 h))
  | cons k ls ih =>
    rw [addTable] at h
    split at h
    · next hk =>
      rcases List.mem_cons.1 h with rfl | h
      · exact .inr (.inr ⟨k, by simp, hk, rfl⟩)
      · exact .inl (List.mem_cons_of_mem k h)
    · rcases List.mem_cons.1 h with rfl | h
      · exact .inl (by simp)
      · rcases ih h with h | h | ⟨m, hm, h⟩
        · exact .inl (List.mem_cons_of_mem k h)
        · exact .inr (.inl h)
        · exact .inr (.inr ⟨m, List.mem_cons_of_mem k hm, h⟩)

/-- A layout is of a table that was there or that columns were taken in of. -/
theorem name_of_mem_addTable {ls : List TableLayout} {table : String} {cs : List String} {l : TableLayout}
    (h : l ∈ addTable ls table cs) : l.name = table ∨ ∃ k ∈ ls, k.name = l.name := by
  rcases mem_addTable h with h | rfl | ⟨k, -, hk, rfl⟩
  · exact .inr ⟨l, h, rfl⟩
  · exact .inl rfl
  · exact .inl hk

theorem name_of_mem_addTables {ts : List (String × List String)} {ls : List TableLayout} {l : TableLayout}
    (h : l ∈ addTables ls ts) : (∃ t ∈ ts, t.1 = l.name) ∨ ∃ k ∈ ls, k.name = l.name := by
  induction ts generalizing ls with
  | nil => exact .inr ⟨l, h, rfl⟩
  | cons t ts ih =>
    rcases ih h with ⟨u, hu, hname⟩ | ⟨k, hk, hname⟩
    · exact .inl ⟨u, List.mem_cons_of_mem t hu, hname⟩
    · rcases name_of_mem_addTable hk with hk | ⟨m, hm, hk⟩
      · exact .inl ⟨t, by simp, hk.symm.trans hname⟩
      · exact .inr ⟨m, hm, hk.trans hname⟩

theorem names_addTable (ls : List TableLayout) (table : String) (cs : List String) :
    (addTable ls table cs).map name =
      if table ∈ ls.map name then ls.map name else ls.map name ++ [table] := by
  induction ls with
  | nil => simp [addTable]
  | cons l ls ih =>
    rw [addTable]
    by_cases hl : l.name = table
    · simp [hl]
    · rw [if_neg hl, List.map_cons, ih, List.map_cons]
      by_cases ht : table ∈ ls.map name
      · rw [if_pos ht, if_pos (List.mem_cons_of_mem _ ht)]
      · rw [if_neg ht, if_neg (by simpa [Ne.symm hl] using ht), List.cons_append]

/-- No two layouts are of one table. -/
theorem nodup_names_addTables {ts : List (String × List String)} {ls : List TableLayout}
    (h : (ls.map name).Nodup) : ((addTables ls ts).map name).Nodup := by
  induction ts generalizing ls with
  | nil => exact h
  | cons t ts ih =>
    refine ih ?_
    rw [names_addTable]
    split
    · exact h
    · next ht =>
      rw [List.nodup_append]
      refine ⟨h, by simp, fun a ha b hb => ?_⟩
      rw [List.mem_singleton.1 hb]
      exact fun hab => ht (hab ▸ ha)

theorem named?_of_mem {ls : List TableLayout} (hn : (ls.map name).Nodup) {l : TableLayout}
    (hl : l ∈ ls) : named? ls l.name = some l := by
  obtain ⟨k, hk⟩ := exists_named?_of_mem hl
  obtain ⟨hmem, hname⟩ := named?_eq_some hk
  rw [hk, List.inj_on_of_nodup_map hn hmem hl hname]

theorem nodup_addColumns {columns : List String} (h : columns.Nodup) (cs : List String) :
    (addColumns columns cs).Nodup := by
  induction cs generalizing columns with
  | nil => exact h
  | cons c cs ih =>
    rw [addColumns]
    refine ih ?_
    by_cases hc : c ∈ columns
    · simpa [hc] using h
    · rw [if_neg (by simpa using hc), List.nodup_append]
      refine ⟨h, by simp, fun a ha b hb => ?_⟩
      rw [List.mem_singleton.1 hb]
      exact fun hac => hc (hac ▸ ha)

/-- No layout has a column twice. -/
theorem nodup_columns_addTables {ts : List (String × List String)} {ls : List TableLayout}
    (h : ∀ l ∈ ls, l.columns.Nodup) : ∀ l ∈ addTables ls ts, l.columns.Nodup := by
  induction ts generalizing ls with
  | nil => exact h
  | cons t ts ih =>
    refine ih fun l hl => ?_
    rcases mem_addTable hl with hl | rfl | ⟨k, hk, -, rfl⟩
    · exact h l hl
    · exact nodup_addColumns .nil t.2
    · exact nodup_addColumns (h k hk) t.2

/-- The primary key is the column for keys, where there is one. -/
def KeyedById (l : TableLayout) : Prop :=
  l.primaryKey = if idColumn ∈ l.columns then some idColumn else none

theorem keyedById_add {l : TableLayout} (h : l.KeyedById) (cs : List String) : (l.add cs).KeyedById := by
  have hkey : (l.add cs).primaryKey =
      if (l.add cs).columns.contains idColumn then some idColumn else l.primaryKey := rfl
  rw [KeyedById] at h ⊢
  rw [hkey, h]
  by_cases hid : idColumn ∈ (l.add cs).columns
  · simp [hid]
  · have hold : idColumn ∉ l.columns := fun hc => hid ((mem_columns_add l cs idColumn).2 (.inl hc))
    simp [hid, hold]

theorem keyedById_addTables {ts : List (String × List String)} {ls : List TableLayout}
    (h : ∀ l ∈ ls, l.KeyedById) : ∀ l ∈ addTables ls ts, l.KeyedById := by
  induction ts generalizing ls with
  | nil => exact h
  | cons t ts ih =>
    refine ih fun l hl => ?_
    rcases mem_addTable hl with hl | rfl | ⟨k, hk, -, rfl⟩
    · exact h l hl
    · exact keyedById_add (l := ⟨t.1, [], none⟩) rfl t.2
    · exact keyedById_add (h k hk) t.2

end TableLayout

namespace Schema

theorem layouts_eq_ok {schema : Schema} {ls : List TableLayout} (h : schema.layouts = .ok ls) :
    ls = TableLayout.addTables [] schema.tables := by
  rw [layouts] at h
  split at h
  · cases h
  · exact (Except.ok.inj h).symm

/-- A schema's layouts cover whatever tables it collects. -/
theorem covers_of_mem_tables {schema : Schema} {ls : List TableLayout} (h : schema.layouts = .ok ls)
    {t : String × List String} (ht : t ∈ schema.tables) : TableLayout.Covers ls t.1 t.2 :=
  layouts_eq_ok h ▸ TableLayout.covers_addTables ht []

theorem mem_tables_of_layout {schema : Schema} {ls : List TableLayout} (h : schema.layouts = .ok ls)
    {l : TableLayout} (hl : l ∈ ls) : ∃ t ∈ schema.tables, t.1 = l.name := by
  rw [layouts_eq_ok h] at hl
  exact (TableLayout.name_of_mem_addTables hl).resolve_right (by simp)

/-- A layout is the one that is found under its name. -/
theorem named?_of_layout {schema : Schema} {ls : List TableLayout} (h : schema.layouts = .ok ls)
    {l : TableLayout} (hl : l ∈ ls) : TableLayout.named? ls l.name = some l := by
  refine TableLayout.named?_of_mem ?_ hl
  rw [layouts_eq_ok h]
  exact TableLayout.nodup_names_addTables .nil

theorem keyedById_of_layout {schema : Schema} {ls : List TableLayout} (h : schema.layouts = .ok ls)
    {l : TableLayout} (hl : l ∈ ls) : l.KeyedById := by
  rw [layouts_eq_ok h] at hl
  exact TableLayout.keyedById_addTables (List.forall_mem_nil _) l hl

theorem nodup_columns_of_layout {schema : Schema} {ls : List TableLayout} (h : schema.layouts = .ok ls)
    {l : TableLayout} (hl : l ∈ ls) : l.columns.Nodup := by
  rw [layouts_eq_ok h] at hl
  exact TableLayout.nodup_columns_addTables (List.forall_mem_nil _) l hl

end Schema

end Tabulate
