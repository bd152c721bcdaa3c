import Tabulate.Proofs.Files
import Tabulate.Proofs.Stores

/-! Making an output ready. Directories are made where nothing was, tables that are there keep their rows
and may get more columns, and every layout gets a table of its name. -/
namespace Tabulate

open Effects

/-! ### Directories -/

namespace FileSystem

structure MakesDirectories (fs fs' : FileSystem) : Prop where
  workingDirectory : fs'.workingDirectory = fs.workingDirectory
  made : ∀ a, fs'.at? a = fs.at? a ∨ fs.at? a = none ∧ fs'.at? a = some .directory

namespace MakesDirectories

theorem refl (fs : FileSystem) : MakesDirectories fs fs := ⟨rfl, fun _ => .inl rfl⟩

theorem trans {fs fs' fs'' : FileSystem} (h : MakesDirectories fs fs') (h' : MakesDirectories fs' fs'') :
    MakesDirectories fs fs'' where
  workingDirectory := h'.workingDirectory.trans h.workingDirectory
  made a := by
    rcases h.made a with ha | ⟨ha, hb⟩ <;> rcases h'.made a with hc | ⟨hc, hd⟩
    · exact .inl (hc.trans ha)
    · exact .inr ⟨ha ▸ hc, hd⟩
    · exact .inr ⟨ha, hc.trans hb⟩
    · exact absurd (hb.symm.trans hc) nofun

/-- What is there stays as it is. -/
theorem at?_eq {fs fs' : FileSystem} (h : MakesDirectories fs fs') {a : List String} {e : Entry}
    (ha : fs.at? a = some e) : fs'.at? a = some e := by
  rcases h.made a with hsame | ⟨hnone, -⟩
  · rw [hsame, ha]
  · exact nomatch ha.symm.trans hnone

theorem keepsDirectories {fs fs' : FileSystem} (h : MakesDirectories fs fs') : KeepsDirectories fs fs' where
  workingDirectory := h.workingDirectory
  directory _ ha := h.at?_eq ha

theorem lengthens {fs fs' : FileSystem} (h : MakesDirectories fs fs') : Lengthens fs fs' := by
  refine lengthens_of_keeps h.keepsDirectories fun a bytes hbytes => ⟨bytes, ?_, List.prefix_rfl⟩
  obtain ⟨e, he, hread⟩ := Option.bind_eq_some_iff.1 hbytes
  rw [h.at?_eq he]
  exact hread

end MakesDirectories

theorem makeDirectory_makes {fs fs' : FileSystem} {path : String} (h : fs.makeDirectory path = .ok fs') :
    MakesDirectories fs fs' := by
  obtain ⟨a, -, h⟩ := except_bind_eq_ok.1 h
  cases ha : fs.at? a with
  | some e =>
    rw [ha] at h
    cases h
  | none =>
    rw [ha] at h
    cases h
    have hne : a ≠ [] := ne_nil_of_at? fun h => nomatch ha.symm.trans h
    refine ⟨workingDirectory_set fs a _, fun b => ?_⟩
    rw [at?_set fs hne]
    by_cases hb : b = a
    · exact .inr ⟨hb ▸ ha, if_pos hb⟩
    · exact .inl (if_neg hb)

theorem makeDirectories_go_makes (fuel : Nat) (fs : FileSystem) (path : String) :
    MakesDirectories fs (makeDirectories.go fuel fs path).1 := by
  induction fuel generalizing fs path with
  | zero => exact .refl fs
  | succ fuel ih =>
    rw [makeDirectories.go]
    split
    · exact .refl fs
    · split
      · next made hmade => exact makeDirectory_makes hmade
      · split
        · exact .refl fs
        · next parent hparent =>
          have hinner := ih fs parent
          split
          · next fs₁ fault hgo =>
            rw [hgo] at hinner
            exact hinner
          · next fs₁ hgo =>
            rw [hgo] at hinner
            split
            · next made hmade => exact hinner.trans (makeDirectory_makes hmade)
            · exact hinner
      · exact .refl fs

theorem makeDirectories_makes (fs : FileSystem) (path : String) :
    MakesDirectories fs (fs.makeDirectories path).1 :=
  makeDirectories_go_makes _ fs path

end FileSystem

/-! ### Tables -/

def Table.widened (t : Table) (cs : List Column) : Table :=
  { t with columns := t.columns ++ cs, rows := t.rows.map (· ++ cs.map fun _ => .null) }

theorem Table.widened_nil (t : Table) : t.widened [] = t := by simp [widened]

theorem Table.widened_widened (t : Table) (cs more : List Column) :
    (t.widened cs).widened more = t.widened (cs ++ more) := by
  simp [widened, Function.comp_def]

namespace Database

structure WidensTo (d d' : Database) : Prop where
  kept : ∀ t ∈ d.tables, ∃ cs, t.widened cs ∈ d'.tables
  made : ∀ t' ∈ d'.tables, t'.rows = [] ∨ ∃ t ∈ d.tables, ∃ cs, t' = t.widened cs

theorem WidensTo.refl (d : Database) : d.WidensTo d where
  kept t ht := ⟨[], t.widened_nil.symm ▸ ht⟩
  made t ht := .inr ⟨t, ht, [], t.widened_nil.symm⟩

theorem WidensTo.trans {d d' d'' : Database} (h : d.WidensTo d') (h' : d'.WidensTo d'') :
    d.WidensTo d'' where
  kept t ht := by
    obtain ⟨cs, hcs⟩ := h.kept t ht
    obtain ⟨more, hmore⟩ := h'.kept _ hcs
    exact ⟨cs ++ more, t.widened_widened cs more ▸ hmore⟩
  made t'' ht'' := by
    rcases h'.made t'' ht'' with hnil | ⟨t', ht', more, rfl⟩
    · exact .inl hnil
    · rcases h.made t' ht' with hnil | ⟨t, ht, cs, rfl⟩
      · exact .inl (by simp [Table.widened, hnil])
      · exact .inr ⟨t, ht, cs ++ more, t.widened_widened cs more⟩

/-- No table is lost. -/
theorem WidensTo.names {d d' : Database} (h : d.WidensTo d') {table : String}
    (ht : table ∈ d.tables.map Table.name) : table ∈ d'.tables.map Table.name := by
  obtain ⟨t, hmem, rfl⟩ := List.mem_map.1 ht
  obtain ⟨cs, hcs⟩ := h.kept t hmem
  exact List.mem_map.2 ⟨_, hcs, rfl⟩

section Statements
variable {d d' : Database} {table column : String} {type : ColumnType} {cs : List Column}

theorem create?_eq_some (h : d.create? table cs = some d') :
    d.table? table = none ∧ d' = ⟨d.tables ++ [⟨table, cs, []⟩]⟩ := by
  rw [create?] at h
  split at h
  · cases h
  · next hno =>
    simp only [Bool.or_eq_true, not_or, Bool.not_eq_true, Option.isSome_eq_false_iff,
      Option.isNone_iff_eq_none] at hno
    exact ⟨hno.1.1.1.1, (Option.some.inj h).symm⟩

theorem create?_widens (hd : d.Distinct) (h : d.create? table cs = some d') :
    d'.Distinct ∧ d.WidensTo d' := by
  obtain ⟨hnone, rfl⟩ := create?_eq_some h
  constructor
  · have hfree (t : Table) (ht : t ∈ d.tables) : foldCase t.name ≠ foldCase table := by
      simpa [sameName] using List.find?_eq_none.1 hnone t ht
    rw [Distinct, distinctNames_iff] at hd ⊢
    rw [List.map_append, List.map_append, List.nodup_append]
    refine ⟨hd, by simp, ?_⟩
    simpa using hfree
  · refine ⟨fun t ht => ⟨[], ?_⟩, fun t' ht' => ?_⟩
    · rw [t.widened_nil]
      exact List.mem_append_left _ ht
    · rcases List.mem_append.1 ht' with ht' | ht'
      · exact .inr ⟨t', ht', [], t'.widened_nil.symm⟩
      · rw [List.mem_singleton.1 ht']
        exact .inl rfl

theorem names_update (d : Database) (t : Table) :
    (d.update t).tables.map Table.name = d.tables.map Table.name := by
  rw [update, List.map_map, List.map_inj_left]
  intro u hu
  by_cases hname : u.name = t.name <;> simp [hname]

theorem addColumn?_widens (hd : d.Distinct) (h : d.addColumn? table column type = some d') :
    d'.Distinct ∧ d.WidensTo d' := by
  rw [addColumn?] at h
  obtain ⟨t, ht, h⟩ := Option.bind_eq_some_iff.1 h
  split at h
  · cases h
  · have hmem : t ∈ d.tables := List.mem_of_find?_eq_some ht
    have hd' : d' = d.update (t.widened [⟨column, type, false⟩]) := (Option.some.inj h).symm
    subst hd'
    refine ⟨by rw [Distinct, names_update]; exact hd, fun u hu => ?_, fun u' hu' => ?_⟩
    · by_cases hname : u.name = t.name
      · obtain rfl : u = t := hd.eq_of_sameName hu hmem (by simp [sameName, hname])
        exact ⟨_, List.mem_map.2 ⟨u, hu, if_pos rfl⟩⟩
      · exact ⟨[], List.mem_map.2 ⟨u, hu, (if_neg hname).trans u.widened_nil.symm⟩⟩
    · obtain ⟨u, hu, rfl⟩ := List.mem_map.1 hu'
      by_cases hname : u.name = t.name
      · exact .inr ⟨t, hmem, _, if_pos hname⟩
      · exact .inr ⟨u, hu, [], (if_neg hname).trans u.widened_nil.symm⟩

end Statements

end Database

/-! ### Stores -/

def Entry.database? : Entry → Option Database
  | database d => some d
  | _ => none

namespace Store

/-- A store that is the same but for its tables, which have been widened if their names differ. -/
def Widens (s s' : Store) : Prop :=
  s'.config = s.config ∧ s'.address = s.address ∧
    (s.database.Distinct → s'.database.Distinct ∧ s.database.WidensTo s'.database)

theorem Widens.refl (s : Store) : s.Widens s := ⟨rfl, rfl, fun hd => ⟨hd, .refl _⟩⟩

theorem Widens.trans {s s' s'' : Store} (h : s.Widens s') (h' : s'.Widens s'') : s.Widens s'' := by
  refine ⟨h'.1.trans h.1, h'.2.1.trans h.2.1, fun hd => ?_⟩
  obtain ⟨hd', hw⟩ := h.2.2 hd
  obtain ⟨hd'', hw'⟩ := h'.2.2 hd'
  exact ⟨hd'', hw.trans hw'⟩

theorem inOrder_perm (order : List String) (cs : List Column) : (inOrder order cs).Perm cs :=
  List.mergeSort_perm ..

def tableOf (l : TableLayout) : Table :=
  ⟨l.name, inOrder l.columns (l.columns.map fun c => ⟨c, .text, l.primaryKey = some c⟩), []⟩

/-- The columns of a new table stand in the order of its layout. -/
theorem columns_tableOf {l : TableLayout} (h : l.columns.Nodup) :
    (tableOf l).columns = l.columns.map fun c => ⟨c, .text, l.primaryKey = some c⟩ := by
  have hplace (i : Nat) (hi : i < l.columns.length) : l.columns.findIdx (· = l.columns[i]) = i :=
    h.idxOf_getElem i hi
  refine List.mergeSort_of_pairwise ?_
  rw [List.pairwise_map, List.pairwise_iff_getElem]
  intro i j hi hj hij
  simp only [hplace i hi, hplace j hj]
  exact decide_eq_true (Nat.le_of_lt hij)

theorem createTable_eq_ok {table : String} {columns : List (String × ColumnType)} {key : Option String}
    {order : List String} {s s' : Store} (h : createTable table columns key order s = .ok () s') :
    columns.length ≤ s.config.maxColumns ∧
      ∃ d, s.database.create? table (inOrder order (columns.map fun c => ⟨c.1, c.2, key = some c.1⟩)) = some d ∧
        s' = { s with database := d } := by
  rw [createTable] at h
  obtain ⟨_, _, hget, h⟩ := bind_eq_ok.1 h
  cases hget
  obtain ⟨-, h⟩ := refuse_eq_ok.1 h
  obtain ⟨hlimit, h⟩ := refuse_eq_ok.1 h
  refine ⟨Nat.le_of_not_lt hlimit, ?_⟩
  cases key with
  | none => exact execute_eq_ok.1 h
  | some k =>
    obtain ⟨-, h⟩ := refuse_eq_ok.1 h
    exact execute_eq_ok.1 h

theorem createTable_widens {table : String} {columns : List (String × ColumnType)} {key : Option String}
    {order : List String} {s s' : Store} (h : createTable table columns key order s = .ok () s') :
    s.Widens s' := by
  obtain ⟨-, d, hd, rfl⟩ := createTable_eq_ok h
  exact ⟨rfl, rfl, fun hdistinct => Database.create?_widens hdistinct hd⟩

theorem prepareTable_widens {existing : List String} {l : TableLayout} {s s' : Store}
    (h : prepareTable existing l s = .ok () s') : s.Widens s' := by
  rw [prepareTable] at h
  split at h
  · obtain ⟨_, _, hget, h⟩ := bind_eq_ok.1 h
    cases hget
    refine forM_rel Widens.refl (fun h h' => h.trans h') (fun c _ a b hc => ?_) h
    obtain ⟨d, hd, rfl⟩ := execute_eq_ok.1 hc
    exact ⟨rfl, rfl, fun hdistinct => Database.addColumn?_widens hdistinct hd⟩
  · exact createTable_widens h

/-- The table of a layout that is not there is made empty, with the columns of the layout. -/
theorem prepareTable_creates {existing : List String} {l : TableLayout} {s s' : Store}
    (hl : l.name ∉ existing) (h : prepareTable existing l s = .ok () s') :
    l.columns.length ≤ s.config.maxColumns ∧
      s.database.create? l.name (tableOf l).columns = some s'.database ∧
      s' = { s with database := ⟨s.database.tables ++ [tableOf l]⟩ } := by
  rw [prepareTable, if_neg (mt List.contains_iff_mem.1 hl)] at h
  obtain ⟨hlimit, d, hcreate, rfl⟩ := createTable_eq_ok h
  have hcolumns : (l.columns.map (·, ColumnType.text)).map
      (fun c => (⟨c.1, c.2, l.primaryKey = some c.1⟩ : Column)) =
      l.columns.map fun c => ⟨c, .text, l.primaryKey = some c⟩ := by
    rw [List.map_map]
    rfl
  rw [hcolumns] at hcreate
  obtain ⟨-, rfl⟩ := Database.create?_eq_some hcreate
  exact ⟨by rwa [List.length_map] at hlimit, hcreate, rfl⟩

theorem mem_tableNames_of_prepareTable {existing : List String} {l : TableLayout} {s s' : Store}
    (hd : s.database.Distinct) (he : ∀ table ∈ existing, table ∈ s.tableNames)
    (h : prepareTable existing l s = .ok () s') : l.name ∈ s'.tableNames := by
  have hw := (prepareTable_widens h).2.2 hd
  by_cases hl : l.name ∈ existing
  · exact hw.2.names (he l.name hl)
  · obtain ⟨-, -, rfl⟩ := prepareTable_creates hl h
    simp [tableNames, tableOf]

theorem forM_prepareTable_widens {existing : List String} {ls : List TableLayout} {s s' : Store}
    (h : ls.forM (prepareTable existing) s = .ok () s') : s.Widens s' :=
  forM_rel Widens.refl (fun h h' => h.trans h') (fun _ _ _ _ => prepareTable_widens) h

theorem prepare_widens {ls : List TableLayout} {s s' : Store} (h : prepare ls s = .ok () s') :
    s.Widens s' := by
  obtain ⟨_, _, hget, h⟩ := bind_eq_ok.1 h
  cases hget
  exact forM_prepareTable_widens h

theorem mem_tableNames_of_forM {existing : List String} {ls : List TableLayout} {s s' : Store}
    (hd : s.database.Distinct) (he : ∀ table ∈ existing, table ∈ s.tableNames)
    (h : ls.forM (prepareTable existing) s = .ok () s') : ∀ l ∈ ls, l.name ∈ s'.tableNames := by
  induction ls generalizing s with
  | nil => exact nofun
  | cons l ls ih =>
    obtain ⟨_, s₁, hl, hls⟩ := bind_eq_ok.1 h
    obtain ⟨hd₁, hnames⟩ := (prepareTable_widens hl).2.2 hd
    intro k hk
    rcases List.mem_cons.1 hk with rfl | hk
    · have hkept := ((forM_prepareTable_widens hls).2.2 hd₁).2
      exact hkept.names (mem_tableNames_of_prepareTable hd he hl)
    · exact ih hd₁ (fun table ht => hnames.names (he table ht)) hls k hk

/-- After the preparation every layout has a table of its name. -/
theorem mem_tableNames_of_prepare {ls : List TableLayout} {s s' : Store} (hd : s.database.Distinct)
    (h : prepare ls s = .ok () s') : ∀ l ∈ ls, l.name ∈ s'.tableNames := by
  obtain ⟨_, _, hget, h⟩ := bind_eq_ok.1 h
  cases hget
  exact mem_tableNames_of_forM hd (fun _ ht => ht) h

theorem tables_of_forM {ls : List TableLayout} {s s' : Store} (h : ls.forM (prepareTable []) s = .ok () s') :
    s'.database.tables = s.database.tables ++ ls.map tableOf := by
  induction ls generalizing s with
  | nil =>
    obtain rfl := (pure_eq_ok.1 h).2
    simp
  | cons l ls ih =>
    obtain ⟨_, s₁, hl, hls⟩ := bind_eq_ok.1 h
    obtain ⟨-, -, rfl⟩ := prepareTable_creates List.not_mem_nil hl
    rw [ih hls, List.map_cons, List.append_assoc]
    rfl

/-- In an empty database the layouts have their tables and there are no others. -/
theorem prepare_empty {ls : List TableLayout} {s s' : Store} (hs : s.database = .empty)
    (h : prepare ls s = .ok () s') : s'.database.tables = ls.map tableOf := by
  obtain ⟨_, _, hget, h⟩ := bind_eq_ok.1 h
  cases hget
  have hnone : s.tableNames = [] := by
    rw [tableNames, hs]
    rfl
  rw [hnone] at h
  rw [tables_of_forM h, hs]
  rfl

/-- A database that is opened is the one at its address; directories may be made on the way there. -/
theorem openAt_eq_ok {c : StoreConfig} {fs fs' : FileSystem} {s : Store}
    (h : openAt c fs = (.ok s, fs')) : ∃ made, fs.MakesDirectories made ∧ s.config = c ∧
      made.openDatabase c.path = .ok (s.database, s.address) ∧ fs' = s.save made := by
  rw [openAt] at h
  split at h
  · cases h
  · split at h
    · cases h
    · split at h
      next outcome made hpair =>
      have hmade : fs.MakesDirectories made := by
        split at hpair
        · next parent hno hparent =>
          have hsecond : (fs.makeDirectories parent).1 = made := (Prod.ext_iff.1 hpair).2
          exact hsecond ▸ FileSystem.makeDirectories_makes fs parent
        · cases hpair
          exact .refl fs
      split at h
      · cases h
      · split at h
        · cases h
        · next database address hopen =>
          cases h
          exact ⟨made, hmade, rfl, hopen, rfl⟩

end Store

namespace FileSystem

def databaseAt (fs : FileSystem) (address : Option (List String)) : Database :=
  match address.bind fs.at? with
  | some (.database d) => d
  | _ => .empty

/-- A database that is opened is in memory, or at a place where it is, or where nothing is yet. -/
theorem openDatabase_cases {fs : FileSystem} {path : String} {d : Database} {address : Option (List String)}
    (h : fs.openDatabase path = .ok (d, address)) : address = none ∧ d = .empty ∨
      ∃ a, address = some a ∧ (fs.at? a = some (.database d) ∨
        d = .empty ∧ (fs.at? a = none ∨ fs.at? a = some (.file []))) := by
  rw [openDatabase] at h
  split at h
  · cases h
    exact .inl ⟨rfl, rfl⟩
  · split at h
    · cases h
    · split at h
      · cases h
      · next a hl =>
        split at h
        · next ha =>
          cases h
          exact .inr ⟨a, rfl, .inr ⟨rfl, .inl ha⟩⟩
        · next ha =>
          cases h
          exact .inr ⟨a, rfl, .inl ha⟩
        · cases h
        · next ha =>
          cases h
          exact .inr ⟨a, rfl, .inr ⟨rfl, .inr ha⟩⟩
        · cases h

theorem openDatabase_eq_ok {fs : FileSystem} {path : String} {d : Database} {address : Option (List String)}
    (h : fs.openDatabase path = .ok (d, address)) :
    d = fs.databaseAt address ∧ ∀ a, address = some a → fs.at? a ≠ some .directory := by
  rcases openDatabase_cases h with ⟨rfl, rfl⟩ | ⟨a, rfl, ha | ⟨rfl, ha | ha⟩⟩
  · exact ⟨rfl, nofun⟩
  all_goals
    refine ⟨by simp [databaseAt, ha], ?_⟩
    rintro _ ⟨⟩
    simp [ha]

/-- Where a database is opened there is no more than the beginning of one. -/
theorem prefix_of_openDatabase {fs : FileSystem} {path : String} {d : Database} {a : List String}
    (h : fs.openDatabase path = .ok (d, some a)) {bytes : List UInt8}
    (hbytes : (fs.at? a).bind Entry.bytes? = some bytes) : bytes <+: databaseBytes := by
  rcases openDatabase_cases h with ⟨ha, -⟩ | ⟨_, ⟨⟩, ha | ⟨-, ha | ha⟩⟩
  · cases ha
  all_goals rw [ha] at hbytes
  · exact Option.some.inj hbytes ▸ List.prefix_rfl
  · cases hbytes
  · exact Option.some.inj hbytes ▸ List.nil_prefix

theorem MakesDirectories.databaseAt {fs fs' : FileSystem} (h : MakesDirectories fs fs')
    (address : Option (List String)) : fs'.databaseAt address = fs.databaseAt address := by
  cases address with
  | none => rfl
  | some a =>
    simp only [FileSystem.databaseAt, Option.bind_some]
    rcases h.made a with ha | ⟨hnone, hdir⟩
    · rw [ha]
    · rw [hnone, hdir]

def SoundDatabases (fs : FileSystem) : Prop := ∀ e ∈ fs.entries, ∀ d ∈ e.2.database?, d.Distinct

instance (fs : FileSystem) : Decidable fs.SoundDatabases := inferInstanceAs (Decidable (∀ _ ∈ _, _))

theorem SoundDatabases.at? {fs : FileSystem} (h : fs.SoundDatabases) {a : List String} {d : Database}
    (ha : fs.at? a = some (.database d)) : d.Distinct := by
  rw [FileSystem.at?] at ha
  split at ha
  · cases ha
  · obtain ⟨before, after, hentries, -⟩ := List.lookup_eq_some_iff.1 ha
    exact h (a, .database d) (by simp [hentries]) d rfl

theorem SoundDatabases.databaseAt {fs : FileSystem} (h : fs.SoundDatabases) (address : Option (List String)) :
    (fs.databaseAt address).Distinct := by
  rw [FileSystem.databaseAt]
  split
  · next d hd =>
    obtain ⟨a, -, ha⟩ := Option.bind_eq_some_iff.1 hd
    exact h.at? ha
  · rfl

end FileSystem

namespace Store

theorem at?_save {s : Store} {fs : FileSystem} (h : ∀ a, s.address = some a → a ≠ []) (a : List String) :
    (s.save fs).at? a = if s.address = some a then some (.database s.database) else fs.at? a := by
  rw [save]
  cases hs : s.address with
  | none => simp
  | some b =>
    simp only [FileSystem.at?_set fs (h b hs), Option.some.injEq, eq_comm]

theorem workingDirectory_save (s : Store) (fs : FileSystem) :
    (s.save fs).workingDirectory = fs.workingDirectory := by
  rw [save]
  split
  · exact FileSystem.workingDirectory_set ..
  · rfl

def Begun (config : StoreConfig) (ls : List TableLayout) (fs : FileSystem) (store : Store)
    (fs' : FileSystem) : Prop :=
  ∃ (made : FileSystem) (opened : Store), fs.MakesDirectories made ∧
    made.openDatabase config.path = .ok (opened.database, opened.address) ∧
    Store.prepare ls { opened with warnings := [] } = .ok () store ∧ fs' = store.save (opened.save made)

section Begun
variable {config : StoreConfig} {ls : List TableLayout} {fs fs' : FileSystem} {store : Store}
  (h : Begun config ls fs store fs')
include h

/-- A store that is opened lies where no directory was; on the way there directories are made. -/
theorem Begun.at? : ∃ made, fs.MakesDirectories made ∧ made.KeepsDirectories fs' ∧
    (∀ a, fs'.at? a = if store.address = some a then some (.database store.database) else made.at? a) ∧
    ∀ a, store.address = some a → ∀ bytes, (made.at? a).bind Entry.bytes? = some bytes →
      bytes <+: FileSystem.databaseBytes := by
  obtain ⟨made, opened, hmade, hopen, hprepare, rfl⟩ := h
  obtain ⟨-, hplace⟩ := FileSystem.openDatabase_eq_ok hopen
  have haddress : store.address = opened.address := (prepare_widens hprepare).2.1
  have hne (a : List String) (ha : opened.address = some a) : a ≠ [] := FileSystem.ne_nil_of_at? (hplace a ha)
  have hat (a : List String) : (store.save (opened.save made)).at? a =
      if store.address = some a then some (.database store.database) else made.at? a := by
    rw [at?_save (haddress ▸ hne), at?_save hne, haddress]
    split <;> rfl
  refine ⟨made, hmade, ⟨?_, fun a ha => ?_⟩, hat, fun a ha bytes hbytes => ?_⟩
  · rw [workingDirectory_save, workingDirectory_save]
  · have hother : store.address ≠ some a := fun hs => hplace a (haddress ▸ hs) ha
    rw [hat, if_neg hother, ha]
  · rw [← haddress, ha] at hopen
    exact FileSystem.prefix_of_openDatabase hopen hbytes

/-- Opening a store takes nothing away that can be read. -/
theorem Begun.lengthens : fs.Lengthens fs' := by
  obtain ⟨made, hmade, hkeeps, hat, hbefore⟩ := h.at?
  refine hmade.lengthens.trans (FileSystem.lengthens_of_keeps hkeeps fun a bytes hbytes => ?_)
  rw [hat]
  by_cases ha : store.address = some a
  · rw [if_pos ha]
    exact ⟨FileSystem.databaseBytes, rfl, hbefore a ha bytes hbytes⟩
  · rw [if_neg ha]
    exact ⟨bytes, hbytes, List.prefix_rfl⟩

/-- A store that is opened has all tables, and their rows are those that were there. -/
theorem Begun.tables (hd : (fs.databaseAt store.address).Distinct) : store.database.Distinct ∧
    (∀ l ∈ ls, l.name ∈ store.tableNames) ∧
    (fs.databaseAt store.address).WidensTo store.database := by
  obtain ⟨made, opened, hmade, hopen, hprepare, rfl⟩ := h
  obtain ⟨hdatabase, -⟩ := FileSystem.openDatabase_eq_ok hopen
  obtain ⟨-, haddress, hwidens⟩ := prepare_widens hprepare
  have hsame : opened.database = fs.databaseAt store.address := by
    rw [hdatabase, hmade.databaseAt, haddress]
  have hopened : opened.database.Distinct := hsame ▸ hd
  obtain ⟨hdistinct, hkept⟩ := hwidens hopened
  have hnames := mem_tableNames_of_prepare (s := { opened with warnings := [] }) hopened hprepare
  exact ⟨hdistinct, hnames, hsame ▸ hkept⟩

/-- A store in which nothing was has the tables of its layouts and no others. -/
theorem Begun.tables_of_empty (hempty : fs.databaseAt store.address = .empty) :
    store.database.tables = ls.map tableOf := by
  obtain ⟨made, opened, hmade, hopen, hprepare, rfl⟩ := h
  obtain ⟨hdatabase, -⟩ := FileSystem.openDatabase_eq_ok hopen
  obtain ⟨-, haddress, -⟩ := prepare_widens hprepare
  have hopened : opened.database = .empty := by rw [hdatabase, hmade.databaseAt, ← haddress, hempty]
  exact prepare_empty (s := { opened with warnings := [] }) hopened hprepare

end Begun

end Store

end Tabulate
