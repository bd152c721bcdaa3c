import Tabulate.Proofs.Fillings
import Tabulate.Proofs.Fitting

/-! Records that are read back. Rows are read in the order of the name `rowid`, which is that of insertion unless
the table has a column that the name stands for: one that is called so, or an integer key. -/
namespace Tabulate

open Effects

/-! ### The order of cells -/

namespace Cell
variable {a b c : Cell}

theorem ratio_pos (a : Cell) : 0 < a.ratio.2 := by
  have hdouble (x : Double) : 0 < x.ratio.2 := by
    simp only [Double.ratio, powRatio]
    split
    · exact Nat.one_pos
    · exact Nat.pow_pos Nat.two_pos
  cases a with
  | real negative x => exact hdouble x
  | _ => exact Nat.one_pos

theorem le_of_rank_ne (h : a.rank ≠ b.rank) : a.le b = decide (a.rank < b.rank) := by
  unfold le
  rw [if_pos h]

theorem le_text (s t : String) : (text s).le (text t) = decide (s ≤ t) := rfl

/-- Numbers of a class are compared as fractions. -/
theorem le_ratio (h : a.rank = b.rank) (ha : a.rank ≠ 4) :
    a.le b = decide (a.ratio.1 * b.ratio.2 ≤ b.ratio.1 * a.ratio.2) := by
  unfold le
  rw [if_neg (not_not.2 h)]
  split
  · exact absurd rfl ha
  · rfl

theorem eq_text_of_rank (h : a.rank = 4) : ∃ s, a = text s := by
  cases a with
  | text s => exact ⟨s, rfl⟩
  | infinite negative => cases negative <;> cases h
  | _ => cases h

theorem rank_le_of_le (h : a.le b = true) : a.rank ≤ b.rank := by
  by_contra hlt
  rw [le_of_rank_ne (by omega), decide_eq_true_eq] at h
  omega

theorem le_total (a b : Cell) : (a.le b || b.le a) = true := by
  rw [Bool.or_eq_true]
  by_cases hrank : a.rank = b.rank
  · by_cases htext : a.rank = 4
    · obtain ⟨s, rfl⟩ := eq_text_of_rank htext
      obtain ⟨t, rfl⟩ := eq_text_of_rank (hrank ▸ htext)
      simpa [le_text] using String.le_total s t
    · rw [le_ratio hrank htext, le_ratio hrank.symm (hrank ▸ htext), decide_eq_true_eq, decide_eq_true_eq]
      exact Int.le_total ..
  · rw [le_of_rank_ne hrank, le_of_rank_ne (Ne.symm hrank), decide_eq_true_eq, decide_eq_true_eq]
    omega

theorem le_trans (a b c : Cell) (hab : a.le b = true) (hbc : b.le c = true) : a.le c = true := by
  have hfirst := rank_le_of_le hab
  have hsecond := rank_le_of_le hbc
  by_cases hac : a.rank = c.rank
  · have hrank : a.rank = b.rank := by omega
    have hrank' : b.rank = c.rank := by omega
    by_cases htext : a.rank = 4
    · obtain ⟨s, rfl⟩ := eq_text_of_rank htext
      obtain ⟨t, rfl⟩ := eq_text_of_rank (hrank ▸ htext)
      obtain ⟨u, rfl⟩ := eq_text_of_rank (hac ▸ htext)
      rw [le_text, decide_eq_true_eq] at hab hbc ⊢
      exact String.le_trans hab hbc
    · rw [le_ratio hrank htext, decide_eq_true_eq] at hab
      rw [le_ratio hrank' (hrank ▸ htext), decide_eq_true_eq] at hbc
      rw [le_ratio hac htext, decide_eq_true_eq]
      have hpos : (0 : Int) < b.ratio.2 := by exact_mod_cast b.ratio_pos
      refine Int.le_of_mul_le_mul_right ?_ hpos
      calc a.ratio.1 * c.ratio.2 * b.ratio.2 = a.ratio.1 * b.ratio.2 * c.ratio.2 := Int.mul_right_comm ..
        _ ≤ b.ratio.1 * a.ratio.2 * c.ratio.2 := Int.mul_le_mul_of_nonneg_right hab (Int.natCast_nonneg _)
        _ = b.ratio.1 * c.ratio.2 * a.ratio.2 := Int.mul_right_comm ..
        _ ≤ c.ratio.1 * b.ratio.2 * a.ratio.2 := Int.mul_le_mul_of_nonneg_right hbc (Int.natCast_nonneg _)
        _ = c.ratio.1 * a.ratio.2 * b.ratio.2 := Int.mul_right_comm ..
  · rw [le_of_rank_ne hac, decide_eq_true_eq]
    omega

end Cell

/-! ### Tables -/

def Column.ordersRows (c : Column) : Bool := sameName c.name "rowid" || (c.primaryKey && c.type = .integer)

/-- What is put under the names of columns is found there. -/
theorem Column.get?_ofList {α : Type} {cs : List Column} (hn : (cs.map name).Nodup) (f : Column → α) {c : Column}
    (hc : c ∈ cs) : (Dictionary.ofList (cs.map fun c => (c.name, f c))).get? c.name = some (f c) := by
  have hkeys : ((cs.map fun c => (c.name, f c)).map (·.1)).Nodup := by
    rw [List.map_map]
    exact hn
  exact Dictionary.get?_ofList_of_mem hkeys (List.mem_map_of_mem (f := fun c : Column => (c.name, f c)) hc)

namespace Table
variable {t : Table} {r : Record}

def recordOf (t : Table) (row : List Cell) : Record :=
  Dictionary.ofList (t.columns.zipWith (fun c cell => (c.name, cell.toValue)) row)

/-- Rows ascend in the column that `rowid` stands for, if there is one. -/
def Ascends (t : Table) (rows : List (List Cell)) : Prop :=
  ∀ i, t.sortColumn? = some i → rows.Pairwise fun a b => (a[i]?.getD .null).le (b[i]?.getD .null) = true

structure Reads (t : Table) (rows : List (List Cell)) : Prop where
  perm : rows.Perm t.rows
  ascends : t.Ascends rows
  stable : ∀ kept : List (List Cell), kept.Sublist t.rows → t.Ascends kept → kept.Sublist rows

theorem sortedRows_reads (t : Table) : t.Reads t.sortedRows := by
  rw [sortedRows]
  cases hsort : t.sortColumn? with
  | none => exact ⟨.refl _, fun i hi => (nomatch hsort.symm.trans hi), fun _ h _ => h⟩
  | some i =>
    have htrans (x y z : List Cell) := Cell.le_trans (x[i]?.getD .null) (y[i]?.getD .null) (z[i]?.getD .null)
    have htotal (x y : List Cell) := Cell.le_total (x[i]?.getD .null) (y[i]?.getD .null)
    refine ⟨List.mergeSort_perm .., fun j hj => ?_, fun rows hrows hascends => ?_⟩
    · cases hsort.symm.trans hj
      exact List.pairwise_mergeSort htrans htotal _
    · exact List.sublist_mergeSort htrans htotal (hascends i hsort) hrows

/-- Rows are read in the order of insertion exactly if they ascended in it. -/
theorem sortedRows_eq_iff : t.sortedRows = t.rows ↔ t.Ascends t.rows := by
  constructor
  · intro h
    have hascends := t.sortedRows_reads.ascends
    rwa [h] at hascends
  · intro h
    rw [sortedRows]
    cases hsort : t.sortColumn? with
    | none => rfl
    | some i => exact List.mergeSort_of_pairwise (h i hsort)

theorem sortColumn?_eq_none_iff : t.sortColumn? = none ↔ ∀ c ∈ t.columns, c.ordersRows = false := by
  rw [sortColumn?, Option.or_eq_none_iff, rowNumberColumn?, List.findIdx?_eq_none_iff, List.findIdx?_eq_none_iff]
  simp only [Column.ordersRows, Bool.or_eq_false_iff]
  exact ⟨fun h c hc => ⟨h.1 c hc, h.2 c hc⟩, fun h => ⟨fun c hc => (h c hc).1, fun c hc => (h c hc).2⟩⟩

theorem lt_of_sortColumn? {i : Nat} (h : t.sortColumn? = some i) : i < t.columns.length := by
  obtain h | ⟨-, h⟩ := Option.or_eq_some_iff.1 h
  · exact (List.findIdx?_eq_some_iff_getElem.1 h).1
  · exact (List.findIdx?_eq_some_iff_getElem.1 h).1

/-- A record that has its number and a free key is put behind the rows as it is. -/
theorem insertRecord?_of_numbered (hn : t.numbered? (t.cellsOf r) = some (t.cellsOf r))
    (ha : t.admits (t.cellsOf r) = true) : t.insertRecord? r = some { t with rows := t.rows ++ [t.cellsOf r] } := by
  rw [insertRecord?, insert?, zipWith_valueOf, hn]
  exact if_pos ha

/-! ### Records with one value throughout

Whichever column the rows are sorted by, and whichever is the key, such records differ in it. -/

def uniform (t : Table) (v : String) : Record := Dictionary.ofList (t.columns.map fun c => (c.name, some v))

def uniformRow (t : Table) (v : String) : List Cell := t.columns.map fun c => Cell.ofText c.type v

section Uniform
variable {v : String} {i : Nat}

theorem uniformRow_getElem? (hi : i < t.columns.length) (v : String) :
    (t.uniformRow v)[i]? = some (Cell.ofText t.columns[i].type v) := by
  rw [uniformRow, List.getElem?_map, List.getElem?_eq_getElem hi]
  rfl

theorem numbered?_uniformRow {n : Int} (hv : Cell.ofText .integer v = .integer n) :
    t.numbered? (t.uniformRow v) = some (t.uniformRow v) := by
  rw [numbered?]
  cases hnumber : t.rowNumberColumn? with
  | none => rfl
  | some i =>
    obtain ⟨hi, hkey, -⟩ := List.findIdx?_eq_some_iff_getElem.1 hnumber
    have htype : t.columns[i].type = .integer := of_decide_eq_true (Bool.and_eq_true_iff.1 hkey).2
    simp only [uniformRow_getElem? hi, htype, hv]

theorem admits_uniformRow (h : ∀ row ∈ t.rows, ∃ w, row = t.uniformRow w ∧
    ∀ type, (Cell.ofText type w).sameKey (Cell.ofText type v) = false) : t.admits (t.uniformRow v) = true := by
  rw [admits]
  split
  · rfl
  · next i hkey =>
    have hi := (List.findIdx?_eq_some_iff_getElem.1 hkey).1
    rw [List.all_eq_true]
    intro row hrow
    obtain ⟨w, rfl, hother⟩ := h row hrow
    rw [uniformRow_getElem? hi, uniformRow_getElem? hi, Option.getD_some, Option.getD_some, hother]
    rfl

/-- Of a two and a one the one is read first. -/
theorem sortedRows_uniform (h : t.sortColumn? = some i) :
    sortedRows { t with rows := [t.uniformRow "2", t.uniformRow "1"] } = [t.uniformRow "1", t.uniformRow "2"] := by
  have hi := lt_of_sortColumn? h
  have hle (type : ColumnType) : (Cell.ofText type "2").le (Cell.ofText type "1") = false := by
    cases type <;> decide +kernel
  have hsort : sortColumn? { t with rows := [t.uniformRow "2", t.uniformRow "1"] } = some i := h
  rw [sortedRows, hsort]
  simp [List.mergeSort, List.MergeSort.Internal.splitInTwo, uniformRow_getElem? hi, hle]

variable (hn : (t.columns.map Column.name).Nodup)
include hn

theorem cellsOf_uniform (v : String) : t.cellsOf (t.uniform v) = t.uniformRow v := by
  refine List.map_congr_left fun c hc => ?_
  have hget : (t.uniform v).get? c.name = some (some v) := Column.get?_ofList hn (fun _ => some v) hc
  rw [Store.valueOf, hget]
  rfl

theorem get?_recordOf_uniformRow (v : String) {c : Column} (hc : c ∈ t.columns) :
    (t.recordOf (t.uniformRow v)).get? c.name = some (Cell.ofText c.type v).toValue := by
  have hpairs : t.columns.zipWith (fun c cell => (c.name, cell.toValue)) (t.uniformRow v) =
      t.columns.map fun c => (c.name, (Cell.ofText c.type v).toValue) := by
    rw [uniformRow, List.zipWith_map_right, List.zipWith_self]
  rw [recordOf, hpairs]
  exact Column.get?_ofList hn (fun c => (Cell.ofText c.type v).toValue) hc

theorem insertRecord?_uniform {n : Int} (hv : Cell.ofText .integer v = .integer n) (h : ∀ row ∈ t.rows, ∃ w,
    row = t.uniformRow w ∧ ∀ type, (Cell.ofText type w).sameKey (Cell.ofText type v) = false) :
    t.insertRecord? (t.uniform v) = some { t with rows := t.rows ++ [t.uniformRow v] } := by
  have hcells := cellsOf_uniform hn v
  rw [← hcells]
  apply insertRecord?_of_numbered
  · rw [hcells]
    exact numbered?_uniformRow hv
  · rw [hcells]
    exact admits_uniformRow h

/-- An empty table takes in a two and a one, whatever its columns are. -/
theorem foldlM_uniform (hrows : t.rows = []) : [t.uniform "2", t.uniform "1"].foldlM insertRecord? t =
    some { t with rows := [t.uniformRow "2", t.uniformRow "1"] } := by
  have hother (type : ColumnType) : (Cell.ofText type "2").sameKey (Cell.ofText type "1") = false := by
    cases type <;> decide +kernel
  have htwo : t.insertRecord? (t.uniform "2") = some { t with rows := [t.uniformRow "2"] } := by
    rw [insertRecord?_uniform hn (n := 2) (by decide +kernel) (by simp [hrows]), hrows]
    rfl
  have hone : insertRecord? { t with rows := [t.uniformRow "2"] } (t.uniform "1") =
      some { t with rows := [t.uniformRow "2", t.uniformRow "1"] } := by
    refine insertRecord?_uniform (t := { t with rows := [t.uniformRow "2"] }) hn (n := 1) (by decide +kernel)
      fun row hrow => ⟨"2", List.mem_singleton.1 hrow, hother⟩
  rw [List.foldlM_cons, htwo]
  exact congrArg (Option.bind · some) hone

/-- The two and the one are read as different records. -/
theorem recordOf_uniformRow_ne (hc : t.columns ≠ []) :
    t.recordOf (t.uniformRow "1") ≠ t.recordOf (t.uniformRow "2") := by
  obtain ⟨c, hc⟩ := List.exists_mem_of_ne_nil _ hc
  have hother : (Cell.ofText c.type "1").toValue ≠ (Cell.ofText c.type "2").toValue := by
    cases c.type <;> decide +kernel
  intro h
  have hget := get?_recordOf_uniformRow hn "2" hc
  rw [← h, get?_recordOf_uniformRow hn "1" hc] at hget
  exact hother (Option.some.inj hget)

end Uniform

end Table

/-! ### Stores -/

namespace Store
variable {s s' s₁ : Store} {t : Table} {table : String} {fs : List Filling} {ns : List Nat}

def held (s : Store) (table : String) : List Record :=
  ((s.database.table? table).map fun t => t.rows.map t.recordOf).getD []

theorem selectAll_of_table? (h : s.database.table? table = some t) :
    s.selectAll table = .ok (t.sortedRows.map t.recordOf) := by
  rw [selectAll, h]
  rfl

theorem held_of_table? (h : s.database.table? table = some t) : s.held table = t.rows.map t.recordOf := by
  rw [held, h]
  rfl

structure HasNew (s : Store) (t : Table) : Prop where
  distinct : s.database.Distinct
  found : s.database.table? t.name = some t
  rows : t.rows = []
  columns : t.columns ≠ []
  names : (t.columns.map Column.name).Nodup
  narrow : t.columns.length ≤ s.config.maxColumns

theorem createTable_hasNew {columns : List (String × ColumnType)} {key : Option String} {order : List String}
    (hd : s.database.Distinct) (h : createTable table columns key order s = .ok () s₁) :
    s₁.HasNew ⟨table, inOrder order (columns.map fun c => ⟨c.1, c.2, key = some c.1⟩), []⟩ := by
  have hdistinct := ((createTable_widens h).2.2 hd).1
  have hne : columns ≠ [] := by
    rintro rfl
    obtain ⟨_, _, hget, h⟩ := bind_eq_ok.1 h
    cases h
  obtain ⟨hlimit, d, hcreate, rfl⟩ := createTable_eq_ok h
  have hordered := inOrder_perm order (columns.map fun c => ⟨c.1, c.2, key = some c.1⟩)
  obtain ⟨-, rfl⟩ := Database.create?_eq_some hcreate
  refine ⟨hdistinct, hdistinct.table?_of_mem (List.mem_append_right _ (List.mem_singleton_self _)), rfl, ?_, ?_, ?_⟩
  · intro hnil
    exact hne (List.map_eq_nil_iff.1 (hordered.symm.trans (.of_eq hnil)).eq_nil)
  · exact Database.nodup_names_of_create? hcreate
  · rw [hordered.length_eq, List.length_map]
    exact hlimit

theorem HasNew.takesIn (h : s.HasNew t) (hrun : fs.mapM Filling.run s = .ok ns s') :
    ∃ t', s'.database.table? t.name = some t' ∧
      t.TakesIn (Database.rowsNamed (fs.flatMap Filling.entries) t.name) t' :=
  ((mapM_run_adds h.distinct hrun).takes h.distinct).database.table? h.found

/-- Into a new table a two and a one can be put. -/
theorem HasNew.insertAll_uniform (h : s.HasNew t) : ∃ n d,
    insertAll t.name [t.uniform "2", t.uniform "1"] s = .ok n { s with database := d } ∧
    d.table? t.name = some { t with rows := [t.uniformRow "2", t.uniformRow "1"] } := by
  have hwidth : s.database.width t.name = t.columns.length := by
    rw [Database.width, h.found]
    rfl
  have hnarrow : t.columns.length ≤ s.config.maxVars ∧ t.columns.length ≤ maxTableColumns := Nat.le_min.1 h.narrow
  have hadds := Database.addRecords?_of_table? h.distinct h.found h.columns [t.uniform "2", t.uniform "1"]
  rw [Table.foldlM_uniform h.names h.rows, Option.map_some] at hadds
  have hbound : s.database.mostBound s.config.maxVars (t.name, [t.uniform "2", t.uniform "1"]) ≤ maxBoundValues := by
    calc s.database.mostBound s.config.maxVars (t.name, [t.uniform "2", t.uniform "1"])
        ≤ 2 * t.columns.length := by
          rw [Database.mostBound, hwidth]
          exact Nat.mul_le_mul_right _ (Nat.min_le_right ..)
      _ ≤ 2 * maxTableColumns := Nat.mul_le_mul_left 2 hnarrow.2
      _ ≤ maxBoundValues := by decide
  refine ⟨_, _, (insertAll_eq_ok h.distinct (hwidth ▸ hnarrow.1)).2 ⟨hbound, rfl, _, hadds, rfl⟩, ?_⟩
  rw [Database.table?_update, h.found, Option.map_some, if_pos rfl]

/-- If `rowid` stands for a column of a new table, its records can be read in another order. -/
theorem HasNew.not_in_order (h : s.HasNew t) {i : Nat} (hi : t.sortColumn? = some i) :
    ∃ (fs : List Filling) (ns : List Nat) (s' : Store), fs.mapM Filling.run s = .ok ns s' ∧
      s'.selectAll t.name ≠ .ok (s'.held t.name) := by
  obtain ⟨n, d, hinsert, hfound⟩ := h.insertAll_uniform
  refine ⟨[.insert t.name [t.uniform "2", t.uniform "1"]], [n], { s with database := d }, ?_, ?_⟩
  · rw [List.mapM_cons]
    exact bind_eq_ok.2 ⟨n, _, hinsert, rfl⟩
  · rw [selectAll_of_table? (s := { s with database := d }) hfound,
      held_of_table? (s := { s with database := d }) hfound, Table.sortedRows_uniform hi]
    intro hsame
    have hrecords := (List.cons.inj (Except.ok.inj hsame)).1
    exact Table.recordOf_uniformRow_ne h.names h.columns hrecords

end Store

/-- From a table that has been made, all records that have been put in since are read once, and they are read in
the order of insertion exactly if the rows ascend in it. They always do exactly if no column is called `rowid`
and the key is no column of integers. -/
theorem selectAll_in_order_iff {s s₁ : Store} {table : String} {columns : List (String × ColumnType)}
    {key : Option String} {order : List String} (hd : s.database.Distinct)
    (h : Store.createTable table columns key order s = .ok () s₁) :
    (∀ (fs : List Filling) ns s', fs.mapM Filling.run s₁ = .ok ns s' → ∃ t, s'.database.table? table = some t ∧
      t.columns = Store.inOrder order (columns.map fun c => ⟨c.1, c.2, key = some c.1⟩) ∧
      List.Forall₂ t.Stores (Database.rowsNamed (fs.flatMap Filling.entries) table) t.rows ∧
      ∃ rows, t.Reads rows ∧ s'.selectAll table = .ok (rows.map t.recordOf) ∧
        (rows = t.rows ↔ t.Ascends t.rows)) ∧
    ((∀ (fs : List Filling) ns s', fs.mapM Filling.run s₁ = .ok ns s' →
        s'.selectAll table = .ok (s'.held table)) ↔
      ∀ c ∈ columns, sameName c.1 "rowid" = false ∧ (key = some c.1 → c.2 ≠ .integer)) := by
  have hnew := Store.createTable_hasNew hd h
  generalize hcs : Store.inOrder order (columns.map fun c => ⟨c.1, c.2, key = some c.1⟩) = cs at hnew ⊢
  -- the columns are put in another order, but the condition is on each of them
  have hcondition : (∀ c ∈ columns, sameName c.1 "rowid" = false ∧ (key = some c.1 → c.2 ≠ .integer)) ↔
      ∀ c ∈ cs, c.ordersRows = false := by
    have hmem (c : Column) : c ∈ cs ↔ c ∈ columns.map fun c => (⟨c.1, c.2, key = some c.1⟩ : Column) :=
      hcs ▸ (Store.inOrder_perm ..).mem_iff
    simp only [hmem, List.forall_mem_map]
    simp [Column.ordersRows]
  refine ⟨fun fs ns s' hrun => ?_, ?_⟩
  · obtain ⟨t, hfound, rows, rfl, hstores⟩ := hnew.takesIn hrun
    exact ⟨_, hfound, rfl, hstores, _, Table.sortedRows_reads _, Store.selectAll_of_table? hfound,
      Table.sortedRows_eq_iff⟩
  · rw [hcondition]
    constructor
    · intro hall
      cases hsort : Table.sortColumn? ⟨table, cs, []⟩ with
      | none => exact Table.sortColumn?_eq_none_iff.1 hsort
      | some i =>
        obtain ⟨fs, ns, s', hrun, hother⟩ := hnew.not_in_order hsort
        exact absurd (hall fs ns s' hrun) hother
    · intro hplain fs ns s' hrun
      obtain ⟨t, hfound, rows, rfl, -⟩ := hnew.takesIn hrun
      have hnone : Table.sortColumn? ⟨table, cs, [] ++ rows⟩ = none := Table.sortColumn?_eq_none_iff.2 hplain
      rw [Store.selectAll_of_table? hfound, Store.held_of_table? hfound, Table.sortedRows, hnone]

def writeNotes (column : String) : Storing (List Nat) := do
  Store.createTable "note" [(column, .text)] none []
  [Filling.insert "note" (["2", "1"].map fun text => Record.empty.insert column (some text))].mapM Filling.run

theorem selectAll_in_order_notes : shelfStore.database.Distinct ∧ ∃ ns s',
    writeNotes "text" shelfStore = .ok ns s' ∧
    s'.selectAll "note" = .ok (["2", "1"].map fun text => Record.empty.insert "text" (some text)) := by
  have hd : shelfStore.database.Distinct := by decide +kernel
  have hsucceeds : succeeds (fun s' => decide (s'.held "note" =
      ["2", "1"].map fun text => Record.empty.insert "text" (some text))) (writeNotes "text" shelfStore) = true := by
    decide +kernel
  obtain ⟨ns, s', hrun, hheld⟩ := succeeds_iff.1 hsucceeds
  obtain ⟨_, s₁, hcreate, hfill⟩ := bind_eq_ok.1 hrun
  have hselect := (selectAll_in_order_iff hd hcreate).2.2 (by decide +kernel) _ ns s' hfill
  exact ⟨hd, ns, s', hrun, hselect.trans (congrArg _ (of_decide_eq_true hheld))⟩

/-- A column that is called `rowid` takes the order of insertion away. -/
theorem notes_read_backwards : ∃ ns s', writeNotes "rowid" shelfStore = .ok ns s' ∧
    s'.held "note" = (["2", "1"].map fun text => Record.empty.insert "rowid" (some text)) ∧
    s'.selectAll "note" = .ok (["1", "2"].map fun text => Record.empty.insert "rowid" (some text)) := by
  let t : Table := ⟨"note", [⟨"rowid", .text, false⟩], []⟩
  have hsucceeds : succeeds (fun s' => decide (s'.database.table? "note" =
      some { t with rows := [t.uniformRow "2", t.uniformRow "1"] })) (writeNotes "rowid" shelfStore) = true := by
    decide +kernel
  obtain ⟨ns, s', hrun, hfound⟩ := succeeds_iff.1 hsucceeds
  have hfound := of_decide_eq_true hfound
  refine ⟨ns, s', hrun, ?_, ?_⟩
  · rw [Store.held_of_table? hfound]
    decide +kernel
  · rw [Store.selectAll_of_table? hfound, Table.sortedRows_uniform (i := 0) (by decide +kernel)]
    have hrecords : [t.uniformRow "1", t.uniformRow "2"].map t.recordOf =
        ["1", "2"].map fun text => Record.empty.insert "rowid" (some text) := by
      decide +kernel
    exact congrArg _ hrecords

end Tabulate
