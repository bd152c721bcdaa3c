import Tabulate.Proofs.Layouts
import Tabulate.Proofs.Preparations

/-! What a preparation comes to. The names of the tables are read once, before the first layout. A table that is
there then is fitted to all layouts of its name, one after the other; every other layout gets a table of its own.
So a second preparation finds nothing to do. -/
namespace Tabulate

open Effects
open TableLayout (addColumns)

def Column.added (name : String) : Column := ⟨name, .text, false⟩

/-! ### Tables -/

namespace Table

def columnNames (t : Table) : List String := t.columns.map Column.name

def fitted : Table → List String → Table
  | t, [] => t
  | t, c :: cs => fitted (if c ∈ t.columnNames then t else t.widened [.added c]) cs

theorem columnNames_widened (t : Table) (cs : List Column) :
    (t.widened cs).columnNames = t.columnNames ++ cs.map Column.name :=
  List.map_append

section Fitted
variable (t : Table) (cs ds : List String)

theorem fitted_append : t.fitted (cs ++ ds) = (t.fitted cs).fitted ds := by
  induction cs generalizing t with
  | nil => rfl
  | cons c cs ih => exact ih _

theorem exists_fitted_eq_widened :
    ∃ added : List String, t.fitted cs = t.widened (added.map .added) ∧ ∀ c ∈ added, c ∈ cs := by
  induction cs generalizing t with
  | nil => exact ⟨[], t.widened_nil.symm, nofun⟩
  | cons c cs ih =>
    rw [fitted]
    split
    · obtain ⟨added, hadded, hall⟩ := ih t
      exact ⟨added, hadded, fun a ha => List.mem_cons_of_mem c (hall a ha)⟩
    · obtain ⟨added, hadded, hall⟩ := ih (t.widened [.added c])
      refine ⟨c :: added, by rw [hadded, widened_widened]; rfl, fun a ha => ?_⟩
      rcases List.mem_cons.1 ha with rfl | ha
      · exact List.mem_cons_self
      · exact List.mem_cons_of_mem c (hall a ha)

theorem name_fitted : (t.fitted cs).name = t.name := by
  obtain ⟨added, hadded, -⟩ := t.exists_fitted_eq_widened cs
  rw [hadded]
  rfl

theorem columnNames_fitted : (t.fitted cs).columnNames = addColumns t.columnNames cs := by
  induction cs generalizing t with
  | nil => rfl
  | cons c cs ih =>
    rw [fitted, addColumns, ih]
    by_cases hc : c ∈ t.columnNames
    · rw [if_pos hc, if_pos (List.contains_iff_mem.2 hc)]
    · rw [if_neg hc, columnNames_widened, if_neg (mt List.contains_iff_mem.1 hc)]
      rfl

variable {t cs ds}

theorem mem_columnNames_fitted {c : String} : c ∈ (t.fitted cs).columnNames ↔ c ∈ t.columnNames ∨ c ∈ cs := by
  rw [columnNames_fitted, TableLayout.mem_addColumns]

/-- Columns that a table has already need not be asked for. -/
theorem fitted_filter {present : List String} (h : ∀ c ∈ present, c ∈ t.columnNames) :
    t.fitted (cs.filter (!present.contains ·)) = t.fitted cs := by
  induction cs generalizing t with
  | nil => rfl
  | cons c cs ih =>
    by_cases hc : c ∈ present
    · rw [List.filter_cons_of_neg (by simpa using hc), fitted, if_pos (h c hc)]
      exact ih h
    · rw [List.filter_cons_of_pos (by simpa using hc), fitted, fitted]
      refine ih fun p hp => ?_
      split
      · exact h p hp
      · rw [columnNames_widened]
        exact List.mem_append_left _ (h p hp)

end Fitted

end Table

/-! ### Databases -/

def TableLayout.wanted (ls : List TableLayout) (table : String) : List String :=
  (ls.filter (·.name = table)).flatMap columns

theorem TableLayout.wanted_concat (ls : List TableLayout) (l : TableLayout) (table : String) :
    wanted (ls ++ [l]) table = if l.name = table then wanted ls table ++ l.columns else wanted ls table := by
  by_cases h : l.name = table
  · simp [wanted, h]
  · simp [wanted, h]

theorem TableLayout.mem_wanted_iff {ls : List TableLayout} {table c : String} :
    c ∈ wanted ls table ↔ ∃ l ∈ ls, l.name = table ∧ c ∈ l.columns := by
  simp [wanted, and_assoc]

theorem TableLayout.wanted_eq_nil {ls : List TableLayout} {table : String} (h : table ∉ ls.map name) :
    wanted ls table = [] := by
  rw [List.eq_nil_iff_forall_not_mem]
  intro c hc
  obtain ⟨l, hl, hname, -⟩ := mem_wanted_iff.1 hc
  exact h (List.mem_map.2 ⟨l, hl, hname⟩)

namespace Database

def unmet (d : Database) (ls : List TableLayout) : List TableLayout :=
  ls.filter (·.name ∉ d.tables.map Table.name)

def fitTable (d : Database) (table : String) (cs : List String) : Database :=
  ⟨d.tables.map fun t => if t.name = table then t.fitted cs else t⟩

def fitted (d : Database) (ls : List TableLayout) : Database :=
  ⟨d.tables.map (fun t => t.fitted (TableLayout.wanted ls t.name)) ++ (d.unmet ls).map Store.tableOf⟩

section Fitting
variable {d d' : Database} {table : String}

theorem fitTable_nil (d : Database) (table : String) : d.fitTable table [] = d := by
  have hsame : d.tables.map (fun t => if t.name = table then t.fitted [] else t) = d.tables.map id :=
    List.map_congr_left fun t _ => ite_self t
  rw [fitTable, hsame, List.map_id]

theorem fitTable_fitTable (d : Database) (table : String) (cs ds : List String) :
    (d.fitTable table cs).fitTable table ds = d.fitTable table (cs ++ ds) := by
  rw [fitTable, fitTable, fitTable, List.map_map]
  congr 1
  refine List.map_congr_left fun t _ => ?_
  by_cases ht : t.name = table
  · simp [ht, Table.name_fitted, Table.fitted_append]
  · simp [ht]

theorem names_fitTable (d : Database) (table : String) (cs : List String) :
    (d.fitTable table cs).tables.map Table.name = d.tables.map Table.name := by
  rw [fitTable, List.map_map]
  refine List.map_congr_left fun t _ => ?_
  by_cases ht : t.name = table
  · simp [ht, Table.name_fitted]
  · simp [ht]

/-- A column that can be added is one that the table lacks. -/
theorem addColumn?_eq_some (hd : d.Distinct) (ht : table ∈ d.tables.map Table.name) {c : String}
    (h : d.addColumn? table c .text = some d') : d' = d.fitTable table [c] := by
  obtain ⟨t, hmem, rfl⟩ := List.mem_map.1 ht
  rw [addColumn?, hd.table?_of_mem hmem] at h
  simp only [Option.bind_eq_bind, Option.bind_some] at h
  split at h
  · cases h
  · next hnew =>
    have hlacks : c ∉ t.columnNames := by
      intro hc
      obtain ⟨k, hk, rfl⟩ := List.mem_map.1 hc
      refine hnew (Bool.or_eq_true_iff.2 (.inl ?_))
      exact List.any_eq_true.2 ⟨k, hk, by simp [sameName]⟩
    rw [← Option.some.inj h, fitTable, update]
    congr 1
    refine List.map_congr_left fun u hu => ?_
    by_cases hname : u.name = t.name
    · obtain rfl : u = t := hd.eq_of_sameName hu hmem (by simp [sameName, hname])
      simp [Table.fitted, hlacks, Table.widened, Column.added]
    · simp [hname]

theorem nodup_names_of_create? {cs : List Column} (h : d.create? table cs = some d') :
    (cs.map Column.name).Nodup := by
  rw [create?] at h
  split at h
  · cases h
  · next hno =>
    have hdistinct : distinctNames (cs.map Column.name) = true := by
      simpa using (not_or.1 (mt Bool.or_eq_true_iff.2 hno)).2
    exact (distinctNames_iff.1 hdistinct).of_map

theorem mem_unmet {ls : List TableLayout} {l : TableLayout} :
    l ∈ d.unmet ls ↔ l ∈ ls ∧ l.name ∉ d.tables.map Table.name := by
  simp only [unmet, List.mem_filter, decide_eq_true_eq]

theorem unmet_concat (ls : List TableLayout) (l : TableLayout) :
    d.unmet (ls ++ [l]) = if l.name ∈ d.tables.map Table.name then d.unmet ls else d.unmet ls ++ [l] := by
  rw [unmet, List.filter_append]
  by_cases hl : l.name ∈ d.tables.map Table.name
  · rw [if_pos hl, List.filter_cons_of_neg (by simpa using hl), List.filter_nil, List.append_nil]
    rfl
  · rw [if_neg hl, List.filter_cons_of_pos (by simpa using hl)]
    rfl

/-- A layout whose table is there changes that table alone. -/
theorem fitted_concat_of_mem {ls : List TableLayout} {l : TableLayout} (hl : l.name ∈ d.tables.map Table.name) :
    d.fitted (ls ++ [l]) = (d.fitted ls).fitTable l.name l.columns := by
  have hold : d.tables.map (fun t => t.fitted (TableLayout.wanted (ls ++ [l]) t.name)) =
      (d.tables.map fun t => t.fitted (TableLayout.wanted ls t.name)).map
        fun t => if t.name = l.name then t.fitted l.columns else t := by
    rw [List.map_map]
    refine List.map_congr_left fun t _ => ?_
    rw [Function.comp_apply, TableLayout.wanted_concat, Table.name_fitted]
    by_cases ht : t.name = l.name
    · rw [if_pos ht.symm, if_pos ht, Table.fitted_append]
    · rw [if_neg (Ne.symm ht), if_neg ht]
  have hnew : (d.unmet ls).map Store.tableOf = ((d.unmet ls).map Store.tableOf).map
      fun t => if t.name = l.name then t.fitted l.columns else t := by
    rw [List.map_map]
    refine List.map_congr_left fun k hk => ?_
    have hother : k.name ≠ l.name := fun h => (mem_unmet.1 hk).2 (h ▸ hl)
    exact (if_neg hother).symm
  rw [fitted, unmet_concat, if_pos hl, hold, hnew, ← List.map_append]
  rfl

theorem fitted_concat_of_not_mem {ls : List TableLayout} {l : TableLayout} (hl : l.name ∉ d.tables.map Table.name) :
    d.fitted (ls ++ [l]) = ⟨(d.fitted ls).tables ++ [Store.tableOf l]⟩ := by
  have hold : d.tables.map (fun t => t.fitted (TableLayout.wanted (ls ++ [l]) t.name)) =
      d.tables.map fun t => t.fitted (TableLayout.wanted ls t.name) := by
    refine List.map_congr_left fun t ht => ?_
    have hother : l.name ≠ t.name := fun h => hl (h ▸ List.mem_map_of_mem ht)
    rw [TableLayout.wanted_concat, if_neg hother]
  rw [fitted, unmet_concat, if_neg hl, hold, List.map_append, ← List.append_assoc]
  rfl

theorem fitted_nil (d : Database) : d.fitted [] = d := by
  have hold : d.tables.map (fun t => t.fitted (TableLayout.wanted [] t.name)) = d.tables := List.map_id _
  rw [fitted, hold]
  exact congrArg mk (List.append_nil _)

theorem fitted_mem {t : Table} (ht : t ∈ d.tables) (ls : List TableLayout) :
    t.fitted (TableLayout.wanted ls t.name) ∈ (d.fitted ls).tables :=
  List.mem_append_left _ (List.mem_map_of_mem (f := fun t => t.fitted (TableLayout.wanted ls t.name)) ht)

theorem tableOf_mem {ls : List TableLayout} {l : TableLayout} (hl : l ∈ d.unmet ls) :
    Store.tableOf l ∈ (d.fitted ls).tables :=
  List.mem_append_right _ (List.mem_map_of_mem hl)

theorem names_fitted (d : Database) (ls : List TableLayout) : (d.fitted ls).tables.map Table.name =
    d.tables.map Table.name ++ (d.unmet ls).map TableLayout.name := by
  rw [fitted, List.map_append, List.map_map, List.map_map]
  congr 1
  exact List.map_congr_left fun t _ => t.name_fitted _

end Fitting

end Database

/-! ### Preparations -/

namespace Store
variable {s s' : Store} {l : TableLayout} {ls : List TableLayout} {existing : List String}

/-- Columns that are added one after the other are those that the table is fitted with. -/
theorem forM_addColumn_eq {table : String} {cs : List String} (hd : s.database.Distinct)
    (ht : table ∈ s.tableNames) (h : (cs.forM fun c => addColumn table c .text) s = .ok () s') :
    s' = { s with database := s.database.fitTable table cs } := by
  induction cs generalizing s with
  | nil =>
    obtain rfl := (pure_eq_ok.1 h).2
    rw [Database.fitTable_nil]
  | cons c cs ih =>
    obtain ⟨_, s₁, hc, hcs⟩ := bind_eq_ok.1 h
    obtain ⟨d, hadd, rfl⟩ := execute_eq_ok.1 hc
    obtain rfl := Database.addColumn?_eq_some hd ht hadd
    have hnames := s.database.names_fitTable table [c]
    have hrest := ih (s := { s with database := s.database.fitTable table [c] })
      (by rw [Database.Distinct, hnames]; exact hd) (by rw [tableNames, hnames]; exact ht) hcs
    rw [hrest, Database.fitTable_fitTable]
    rfl

theorem prepareTable_of_mem (hd : s.database.Distinct) (ht : l.name ∈ s.tableNames) (he : l.name ∈ existing)
    (h : prepareTable existing l s = .ok () s') :
    s' = { s with database := s.database.fitTable l.name l.columns } := by
  rw [prepareTable, if_pos (List.contains_iff_mem.2 he)] at h
  obtain ⟨_, _, hget, h⟩ := bind_eq_ok.1 h
  cases hget
  rw [forM_addColumn_eq hd ht h, Database.fitTable, Database.fitTable]
  congr 2
  refine List.map_congr_left fun t htable => ?_
  by_cases hname : t.name = l.name
  · rw [if_pos hname, if_pos hname]
    have hpresent : s.columns l.name = t.columns := by
      rw [columns, ← hname, hd.table?_of_mem htable]
      rfl
    refine Table.fitted_filter fun c hc => ?_
    rwa [hpresent] at hc
  · rw [if_neg hname, if_neg hname]

/-- One layout after the other is fitted. -/
theorem forM_prepareTable_eq {d : Database} {done : List TableLayout} (hd : s.database.Distinct)
    (hs : s.database = d.fitted done) (h : ls.forM (prepareTable (d.tables.map Table.name)) s = .ok () s') :
    s' = { s with database := d.fitted (done ++ ls) } := by
  induction ls generalizing s done with
  | nil =>
    obtain rfl := (pure_eq_ok.1 h).2
    rw [List.append_nil, ← hs]
  | cons l ls ih =>
    obtain ⟨_, s₁, hl, hls⟩ := bind_eq_ok.1 h
    have hstep : s₁ = { s with database := d.fitted (done ++ [l]) } := by
      by_cases hmem : l.name ∈ d.tables.map Table.name
      · have hthere : l.name ∈ s.tableNames := by
          rw [tableNames, hs, Database.names_fitted]
          exact List.mem_append_left _ hmem
        rw [prepareTable_of_mem hd hthere hmem hl, hs, Database.fitted_concat_of_mem hmem]
      · obtain ⟨-, -, rfl⟩ := prepareTable_creates hmem hl
        rw [hs, Database.fitted_concat_of_not_mem hmem]
    have hrest := ih ((prepareTable_widens hl).2.2 hd).1 (by rw [hstep]) hls
    rw [hrest, hstep, List.append_assoc]
    rfl

theorem prepare_eq (hd : s.database.Distinct) (h : prepare ls s = .ok () s') :
    s' = { s with database := s.database.fitted ls } := by
  obtain ⟨_, _, hget, h⟩ := bind_eq_ok.1 h
  cases hget
  exact forM_prepareTable_eq hd s.database.fitted_nil.symm h

theorem columnNames_tableOf_perm (l : TableLayout) : (tableOf l).columnNames.Perm l.columns := by
  have hordered := (inOrder_perm l.columns (l.columns.map fun c => ⟨c, .text, l.primaryKey = some c⟩)).map Column.name
  rwa [List.map_map, List.map_id''] at hordered
  exact fun c => rfl

/-- What has been made a table has every column once, and no more of them than the store allows. -/
theorem unmet_of_prepare (h : prepare ls s = .ok () s') :
    ∀ l ∈ s.database.unmet ls, l.columns.Nodup ∧ l.columns.length ≤ s.config.maxColumns := by
  intro l hl
  obtain ⟨hmem, hnew⟩ := Database.mem_unmet.1 hl
  obtain ⟨_, _, hget, h⟩ := bind_eq_ok.1 h
  cases hget
  obtain ⟨before, behind, rfl⟩ := List.append_of_mem hmem
  obtain ⟨s₁, hbefore, h⟩ := forM_append_eq_ok.1 h
  obtain ⟨_, s₂, hmade, -⟩ := bind_eq_ok.1 h
  obtain ⟨hlimit, hcreate, -⟩ := prepareTable_creates hnew hmade
  rw [(forM_prepareTable_widens hbefore).1] at hlimit
  refine ⟨?_, hlimit⟩
  exact (columnNames_tableOf_perm l).nodup_iff.1 (Database.nodup_names_of_create? hcreate)

/-- Where every layout has its table and its columns, there is nothing to prepare. -/
theorem prepare_of_covered (hd : s.database.Distinct) (h : ∀ l ∈ ls, ∃ t ∈ s.database.tables, t.name = l.name ∧
    ∀ c ∈ l.columns, c ∈ t.columnNames) : prepare ls s = .ok () s := by
  refine forM_eq_ok_self (f := prepareTable s.tableNames) fun l hl => ?_
  obtain ⟨t, ht, hname, hcolumns⟩ := h l hl
  have hpresent : (s.columns l.name).map Column.name = t.columnNames := by
    rw [columns, ← hname, hd.table?_of_mem ht]
    rfl
  have hlacks : l.columns.filter (!((s.columns l.name).map Column.name).contains ·) = [] := by
    rw [hpresent, List.filter_eq_nil_iff]
    intro c hc
    simpa using hcolumns c hc
  have hthere : s.tableNames.contains l.name = true := List.contains_iff_mem.2 (hname ▸ List.mem_map_of_mem ht)
  rw [prepareTable, if_pos hthere]
  show ((l.columns.filter (!((s.columns l.name).map Column.name).contains ·)).forM
    fun c => addColumn l.name c .text) s = _
  rw [hlacks]
  rfl

/-- What a preparation does to a store. -/
structure Prepares (ls : List TableLayout) (s s' : Store) : Prop where
  /-- Nothing but tables changes, and no two of them have one name. -/
  database : s' = { s with database := s'.database }
  distinct : s'.database.Distinct
  /-- Every layout has a table with all its columns. -/
  covers : ∀ l ∈ ls, ∃ t ∈ s'.database.tables, t.name = l.name ∧ ∀ c ∈ l.columns, c ∈ t.columnNames
  /-- A table that was there has its columns in front and its rows, which hold nothing in what is added of its
  layouts. -/
  keeps : ∀ t ∈ s.database.tables, ∃ added : List Column,
    (∀ c ∈ added, ∃ l ∈ ls, l.name = t.name ∧ c.name ∈ l.columns) ∧
    ∃ t' ∈ s'.database.tables, t'.name = t.name ∧ t'.columns = t.columns ++ added ∧
      t'.rows = t.rows.map (· ++ List.replicate added.length .null)
  /-- A table that no layout is of stays as it was. -/
  spares : ∀ t ∈ s.database.tables, t.name ∉ ls.map TableLayout.name → t ∈ s'.database.tables
  /-- A table that was not there is empty and has the columns of a layout, in its order. -/
  creates : ∀ t ∈ s'.database.tables, t.name ∉ s.tableNames → ∃ l ∈ ls,
    t = ⟨l.name, l.columns.map fun c => ⟨c, .text, l.primaryKey = some c⟩, []⟩
  /-- To do it again changes nothing. -/
  settles : prepare ls s' = .ok () s'

/-- A preparation that succeeds only widens tables and makes new ones, until every layout is covered. -/
theorem prepare_converges (hd : s.database.Distinct) (h : prepare ls s = .ok () s') : Prepares ls s s' := by
  have hdistinct := ((prepare_widens h).2.2 hd).1
  have hunmet := unmet_of_prepare h
  obtain rfl := prepare_eq hd h
  have hcovers : ∀ l ∈ ls, ∃ t ∈ (s.database.fitted ls).tables, t.name = l.name ∧
      ∀ c ∈ l.columns, c ∈ t.columnNames := by
    intro l hl
    by_cases hname : l.name ∈ s.tableNames
    · obtain ⟨t, ht, hname⟩ := List.mem_map.1 hname
      refine ⟨_, Database.fitted_mem ht ls, (t.name_fitted _).trans hname, fun c hc => ?_⟩
      exact Table.mem_columnNames_fitted.2 (.inr (TableLayout.mem_wanted_iff.2 ⟨l, hl, hname.symm, hc⟩))
    · have hmem := Database.tableOf_mem (Database.mem_unmet.2 ⟨hl, hname⟩)
      exact ⟨_, hmem, rfl, fun c hc => (columnNames_tableOf_perm l).mem_iff.2 hc⟩
  refine ⟨rfl, hdistinct, hcovers, fun t ht => ?_, fun t ht hname => ?_, fun t ht hname => ?_,
    prepare_of_covered hdistinct hcovers⟩
  · obtain ⟨added, hadded, hwanted⟩ := t.exists_fitted_eq_widened (TableLayout.wanted ls t.name)
    refine ⟨added.map .added, ?_, _, Database.fitted_mem ht ls, t.name_fitted _, ?_, ?_⟩
    · intro c hc
      obtain ⟨name, hname, rfl⟩ := List.mem_map.1 hc
      exact TableLayout.mem_wanted_iff.1 (hwanted name hname)
    · rw [hadded]
      rfl
    · rw [hadded]
      simp only [Table.widened, List.map_const']
  · have hmem := Database.fitted_mem ht ls
    rwa [TableLayout.wanted_eq_nil hname] at hmem
  · rcases List.mem_append.1 ht with ht | ht
    · obtain ⟨u, hu, rfl⟩ := List.mem_map.1 ht
      rw [Table.name_fitted] at hname
      exact absurd (List.mem_map_of_mem hu) hname
    · obtain ⟨l, hl, rfl⟩ := List.mem_map.1 ht
      refine ⟨l, (Database.mem_unmet.1 hl).1, ?_⟩
      rw [← columns_tableOf (hunmet l hl).1]
      rfl

end Store

def shelfStore : Store where
  config := .inMemory
  address := none
  database := ⟨[⟨"album", [⟨"id", .text, true⟩, ⟨"name", .text, false⟩], [[.text "a", .text "Pink Moon"]]⟩]⟩

def shelfLayouts : List TableLayout :=
  [⟨"album", ["name", "label"], none⟩, ⟨"track", ["id"], some "id"⟩, ⟨"album", ["genre", "label"], none⟩]

theorem prepare_converges_shelf : shelfStore.database.Distinct ∧ ∃ s',
    Store.prepare shelfLayouts shelfStore = .ok () s' ∧ Store.Prepares shelfLayouts shelfStore s' ∧ s'.database.tables =
      [⟨"album", [⟨"id", .text, true⟩, ⟨"name", .text, false⟩, ⟨"label", .text, false⟩, ⟨"genre", .text, false⟩],
        [[.text "a", .text "Pink Moon", .null, .null]]⟩,
       ⟨"track", [⟨"id", .text, true⟩], []⟩] := by
  have hd : shelfStore.database.Distinct := by decide +kernel
  have hsucceeds : succeeds (fun s' => decide (s'.database.tables =
      [⟨"album", [⟨"id", .text, true⟩, ⟨"name", .text, false⟩, ⟨"label", .text, false⟩, ⟨"genre", .text, false⟩],
        [[.text "a", .text "Pink Moon", .null, .null]]⟩,
       ⟨"track", [⟨"id", .text, true⟩], []⟩]))
      (Store.prepare shelfLayouts shelfStore) = true := by
    decide +kernel
  obtain ⟨s', hprepare, htables⟩ := exists_of_succeeds hsucceeds
  exact ⟨hd, s', hprepare, Store.prepare_converges hd hprepare, of_decide_eq_true htables⟩

end Tabulate
