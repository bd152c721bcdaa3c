import Tabulate.Database.Store
import Tabulate.Proofs.Effects
import Tabulate.Proofs.Tables
import Mathlib.Data.List.Forall2
import Mathlib.Data.List.Nodup

/-! Databases that take in records. Every record becomes one row behind those that are there, whatever
the statements are cut into, and a flush that fails leaves the database as it was. -/
namespace Tabulate

open Effects

/-! ### Tables -/

namespace Table

def cellsOf (t : Table) (r : Record) : List Cell :=
  t.columns.map fun c => Cell.ofValue c.type (Store.valueOf r c.name)

/-- The row of a record. Only a numbering column that the record leaves empty is filled in. -/
def Stores (t : Table) (r : Record) (row : List Cell) : Prop :=
  row = t.cellsOf r ∨ ∃ i n, t.rowNumberColumn? = some i ∧ (t.cellsOf r)[i]? = some .null ∧
    row = (t.cellsOf r).set i (.integer n)

/-- The rows of records have been put behind those of a table. -/
def TakesIn (t : Table) (rs : List Record) (t' : Table) : Prop :=
  ∃ rows, t' = { t with rows := t.rows ++ rows } ∧ List.Forall₂ t.Stores rs rows

theorem TakesIn.refl (t : Table) : t.TakesIn [] t := ⟨[], by simp, .nil⟩

theorem TakesIn.trans {t t' t'' : Table} {rs more : List Record} (h : t.TakesIn rs t')
    (h' : t'.TakesIn more t'') : t.TakesIn (rs ++ more) t'' := by
  obtain ⟨rows, rfl, hrows⟩ := h
  obtain ⟨others, rfl, hothers⟩ := h'
  exact ⟨rows ++ others, by simp, List.rel_append hrows hothers⟩

theorem TakesIn.name {t t' : Table} {rs : List Record} (h : t.TakesIn rs t') : t'.name = t.name := by
  obtain ⟨rows, rfl, -⟩ := h
  rfl

theorem TakesIn.columns {t t' : Table} {rs : List Record} (h : t.TakesIn rs t') :
    t'.columns = t.columns := by
  obtain ⟨rows, rfl, -⟩ := h
  rfl

theorem stores_of_numbered {t : Table} {r : Record} {row : List Cell}
    (h : t.numbered? (t.cellsOf r) = some row) : t.Stores r row := by
  rw [numbered?] at h
  split at h
  · exact .inl (Option.some.inj h).symm
  · next i hi =>
    split at h
    · next hnull => exact .inr ⟨i, _, hi, hnull, (Option.some.inj h).symm⟩
    · exact .inl (Option.some.inj h).symm
    · cases h

/-- The values that are inserted for a record are stored as its cells. -/
theorem zipWith_valueOf (t : Table) (r : Record) : t.columns.zipWith (fun c v => Cell.ofValue c.type v)
    ((t.columns.map Column.name).map (Store.valueOf r)) = t.cellsOf r := by
  rw [List.map_map, List.zipWith_map_right, List.zipWith_self]
  rfl

theorem insert?_takesIn {t t' : Table} {r : Record}
    (h : t.insert? ((t.columns.map Column.name).map (Store.valueOf r)) = some t') : t.TakesIn [r] t' := by
  rw [insert?, zipWith_valueOf] at h
  obtain ⟨row, hrow, h⟩ := Option.bind_eq_some_iff.1 h
  split at h
  · cases h
    exact ⟨[row], rfl, .cons (stores_of_numbered hrow) .nil⟩
  · cases h

/-- Records that are inserted one after the other are all taken in. -/
theorem foldlM_insert?_takesIn {t t' : Table} {rs : List Record}
    (h : (rs.map fun r => (t.columns.map Column.name).map (Store.valueOf r)).foldlM insert? t = some t') :
    t.TakesIn rs t' := by
  induction rs generalizing t with
  | nil =>
    cases h
    exact .refl _
  | cons r rs ih =>
    rw [List.map_cons, List.foldlM_cons] at h
    obtain ⟨u, hu, h⟩ := Option.bind_eq_some_iff.1 h
    have hin := insert?_takesIn hu
    rw [← hin.columns] at h
    exact hin.trans (ih h)

end Table

/-! ### Databases -/

namespace Database

theorem distinctNames_iff {ns : List String} : distinctNames ns = true ↔ (ns.map foldCase).Nodup := by
  induction ns with
  | nil => simp [distinctNames]
  | cons n ns ih =>
    have hmem : foldCase n ∉ ns.map foldCase ↔ ∀ m ∈ ns, foldCase n ≠ foldCase m := by
      simp only [List.mem_map, not_exists, not_and, ne_comm, ne_eq]
    rw [List.map_cons, List.nodup_cons, hmem, ← ih]
    simp [distinctNames, sameName]

def Distinct (d : Database) : Prop := distinctNames (d.tables.map Table.name) = true

instance (d : Database) : Decidable d.Distinct := inferInstanceAs (Decidable (_ = _))

theorem Distinct.eq_of_sameName {d : Database} (hd : d.Distinct) {t u : Table} (ht : t ∈ d.tables)
    (hu : u ∈ d.tables) (h : sameName t.name u.name = true) : t = u := by
  have hnodup : (d.tables.map fun t => foldCase t.name).Nodup := by
    simpa [Function.comp_def] using distinctNames_iff.1 hd
  exact List.inj_on_of_nodup_map hnodup ht hu (of_decide_eq_true h)

/-- A table that is there is found by its name. -/
theorem Distinct.table?_of_mem {d : Database} (hd : d.Distinct) {t : Table} (ht : t ∈ d.tables) :
    d.table? t.name = some t := by
  have hsome : (d.table? t.name).isSome := List.find?_isSome.2 ⟨t, ht, by simp [sameName]⟩
  obtain ⟨u, hu⟩ := Option.isSome_iff_exists.1 hsome
  have hname : sameName u.name t.name = true := by simpa using List.find?_some hu
  rw [hu, hd.eq_of_sameName (List.mem_of_find?_eq_some hu) ht hname]

def Takes (d : Database) (rows : String → List Record) (d' : Database) : Prop :=
  List.Forall₂ (fun t t' => t.TakesIn (rows t.name) t') d.tables d'.tables

section Takes
variable {d d' d'' : Database} {rows more : String → List Record}

theorem Takes.refl (d : Database) : d.Takes (fun _ => []) d :=
  List.forall₂_same.2 fun t _ => .refl t

theorem Takes.trans (h : d.Takes rows d') (h' : d'.Takes more d'') :
    d.Takes (fun k => rows k ++ more k) d'' := by
  obtain ⟨ts⟩ := d
  obtain ⟨ts'⟩ := d'
  obtain ⟨ts''⟩ := d''
  simp only [Takes] at h h' ⊢
  induction h generalizing ts'' with
  | nil =>
    cases h'
    exact .nil
  | cons hin _ ih =>
    cases h' with
    | cons hin' h' => exact .cons (hin.trans (hin.name ▸ hin')) (ih _ h')

/-- Whatever table is there after records have come in was there before. -/
theorem Takes.exists_of_mem (h : d.Takes rows d') {t' : Table} (ht' : t' ∈ d'.tables) :
    ∃ t ∈ d.tables, t.TakesIn (rows t.name) t' := by
  obtain ⟨ts⟩ := d
  obtain ⟨ts'⟩ := d'
  simp only [Takes] at h ht' ⊢
  induction h with
  | nil => cases ht'
  | @cons t u ts _ hin _ ih =>
    rcases List.mem_cons.1 ht' with rfl | ht'
    · exact ⟨t, by simp, hin⟩
    · obtain ⟨v, hv, hin'⟩ := ih ht'
      exact ⟨v, List.mem_cons_of_mem t hv, hin'⟩

theorem Takes.names (h : d.Takes rows d') : d'.tables.map Table.name = d.tables.map Table.name := by
  obtain ⟨ts⟩ := d
  obtain ⟨ts'⟩ := d'
  simp only [Takes] at h ⊢
  induction h with
  | nil => rfl
  | cons hin _ ih => rw [List.map_cons, List.map_cons, hin.name, ih]

theorem Takes.distinct (h : d.Takes rows d') (hd : d.Distinct) : d'.Distinct := by
  rw [Distinct, h.names]
  exact hd

/-- A table that is put in the place of another is all that changes. -/
theorem takes_update (hd : d.Distinct) {t t' : Table} {rs : List Record} (ht : t ∈ d.tables)
    (h : t.TakesIn rs t') : d.Takes (Tables.only t.name rs) (d.update t') := by
  rw [Takes, update, List.forall₂_map_right_iff, List.forall₂_same]
  intro u hu
  rw [h.name]
  by_cases hname : u.name = t.name
  · obtain rfl : u = t := hd.eq_of_sameName hu ht (by simp [sameName, hname])
    simpa [Tables.only] using h
  · simpa [hname, Tables.only] using Table.TakesIn.refl u

/-- The records of one statement are taken in by their table. -/
theorem insert?_takes (hd : d.Distinct) {t : Table} {rs : List Record} (ht : t ∈ d.tables)
    (h : d.insert? t.name (rs.map fun r => (t.columns.map Column.name).map (Store.valueOf r)) = some d') :
    d.Takes (Tables.only t.name rs) d' ∧
      ∃ t' ∈ d'.tables, t'.name = t.name ∧ t'.columns = t.columns := by
  rw [insert?, hd.table?_of_mem ht] at h
  simp only [Option.bind_eq_bind, Option.bind_some] at h
  split at h
  · cases h
  · obtain ⟨t', hrows, h⟩ := Option.bind_eq_some_iff.1 h
    cases h
    have hin := Table.foldlM_insert?_takesIn hrows
    refine ⟨takes_update hd ht hin, t', ?_, hin.name, hin.columns⟩
    exact List.mem_map.2 ⟨t, ht, by simp [hin.name]⟩

end Takes

end Database

/-! ### Stores -/

namespace Store

theorem execute_eq_ok {text : String} {f : Database → Option Database} {s s' : Store} :
    execute text f s = .ok () s' ↔ ∃ d, f s.database = some d ∧ s' = { s with database := d } := by
  rw [execute, bind_eq_ok]
  constructor
  · rintro ⟨_, _, hget, h⟩
    cases hget
    cases hf : f s.database with
    | none =>
      rw [hf] at h
      cases h
    | some d =>
      rw [hf] at h
      cases h
      exact ⟨d, rfl, rfl⟩
  · rintro ⟨d, hd, rfl⟩
    refine ⟨s, s, rfl, ?_⟩
    rw [hd]
    rfl

theorem execute_eq_error {text : String} {f : Database → Option Database} {s s' : Store} {e : StoreError}
    (h : execute text f s = .error e s') : e = .statement text ∧ s' = s := by
  rw [execute] at h
  obtain hget | ⟨_, _, hget, h⟩ := bind_eq_error.1 h
  · cases hget
  · cases hget
    cases hf : f s.database with
    | none =>
      rw [hf] at h
      cases h
      exact ⟨rfl, rfl⟩
    | some d =>
      rw [hf] at h
      cases h

theorem flatten_chunks_go {α : Type} {n : Nat} (hn : 0 < n) {fuel : Nat} {xs : List α}
    (h : xs.length ≤ fuel) : (chunks.go n fuel xs).flatten = xs := by
  induction fuel generalizing xs with
  | zero =>
    obtain rfl : xs = [] := List.length_eq_zero_iff.1 (Nat.le_zero.1 h)
    rfl
  | succ fuel ih =>
    cases xs with
    | nil => rfl
    | cons x xs =>
      have hlength : ((x :: xs).drop n).length ≤ fuel := by
        rw [List.length_drop]
        rw [List.length_cons] at h ⊢
        omega
      rw [chunks.go, List.flatten_cons, ih hlength, List.take_append_drop]

/-- Cutting a list into pieces loses none of its members. -/
theorem flatten_chunks {α : Type} {n : Nat} (hn : 0 < n) (xs : List α) : (chunks n xs).flatten = xs :=
  flatten_chunks_go hn (Nat.le_refl _)

structure Takes (s : Store) (rows : String → List Record) (s' : Store) : Prop where
  config : s'.config = s.config
  address : s'.address = s.address
  database : s.database.Takes rows s'.database

section Takes
variable {s s' s'' : Store} {rows more : String → List Record}

theorem Takes.refl (s : Store) : s.Takes (fun _ => []) s := ⟨rfl, rfl, .refl _⟩

theorem Takes.trans (h : s.Takes rows s') (h' : s'.Takes more s'') : s.Takes (fun k => rows k ++ more k) s'' where
  config := h'.config.trans h.config
  address := h'.address.trans h.address
  database := h.database.trans h'.database

/-- Statement after statement, a table takes in the records of all of them. -/
theorem forM_insert_takes {t : Table} {batches : List (List Record)} (hd : s.database.Distinct)
    (ht : ∃ t' ∈ s.database.tables, t'.name = t.name ∧ t'.columns = t.columns)
    (h : (batches.forM fun batch =>
      execute (Statement.insert t.name (t.columns.map Column.name) batch.length)
        (·.insert? t.name (batch.map fun r => (t.columns.map Column.name).map (valueOf r)))) s = .ok () s') :
    s.Takes (Tables.only t.name batches.flatten) s' := by
  induction batches generalizing s with
  | nil =>
    obtain rfl := (pure_eq_ok.1 h).2
    rw [List.flatten_nil, Tables.only_nil]
    exact .refl s
  | cons batch batches ih =>
    obtain ⟨_, s₁, hb, h⟩ := bind_eq_ok.1 h
    obtain ⟨d, hinsert, rfl⟩ := execute_eq_ok.1 hb
    obtain ⟨t₁, ht₁, hname, hcols⟩ := ht
    rw [← hname, ← hcols] at hinsert
    obtain ⟨htakes, t₂, ht₂, hname', hcols'⟩ := Database.insert?_takes hd ht₁ hinsert
    have hfirst : s.Takes (Tables.only t.name batch) { s with database := d } := ⟨rfl, rfl, hname ▸ htakes⟩
    have hrest := ih (htakes.distinct hd) ⟨t₂, ht₂, hname'.trans hname, hcols'.trans hcols⟩ h
    rw [List.flatten_cons, Tables.only_append]
    exact hfirst.trans hrest

end Takes

/-- A table takes in all records that are inserted into it. -/
theorem insertAll_takes {s s' : Store} {table : String} {rs : List Record} {n : Nat}
    (hd : s.database.Distinct) (ht : table ∈ s.tableNames) (h : insertAll table rs s = .ok n s') :
    s.Takes (Tables.only table rs) s' := by
  obtain ⟨t, hmem, rfl⟩ := List.mem_map.1 ht
  have hcolumns : s.columns t.name = t.columns := by
    rw [columns, hd.table?_of_mem hmem]
    rfl
  rw [insertAll] at h
  split at h
  · next hnil =>
    obtain rfl : rs = [] := List.isEmpty_iff.1 hnil
    obtain rfl := (pure_eq_ok.1 h).2
    rw [Tables.only_nil]
    exact .refl s
  · obtain ⟨_, _, hget, h⟩ := bind_eq_ok.1 h
    cases hget
    rw [hcolumns] at h
    obtain ⟨hsome, h⟩ := refuse_eq_ok.1 h
    obtain ⟨hwide, h⟩ := refuse_eq_ok.1 h
    obtain ⟨_, s₁, hall, hp⟩ := bind_eq_ok.1 h
    obtain rfl := (pure_eq_ok.1 hp).2
    have hlength : 0 < (t.columns.map Column.name).length :=
      List.length_pos_iff.2 fun hnil => hsome (List.isEmpty_iff.2 hnil)
    have hpositive : 0 < s.config.maxVars / (t.columns.map Column.name).length :=
      Nat.div_pos (Nat.le_of_not_lt hwide) hlength
    have htakes := forM_insert_takes hd ⟨t, hmem, rfl, rfl⟩ hall
    rwa [flatten_chunks hpositive] at htakes

/-- A flush that succeeds brings in all its records. -/
theorem writeTables_takes {s s' : Store} {t : Tables} {n : Nat} (hd : s.database.Distinct)
    (ht : ∀ table ∈ t.keys, table ∈ s.tableNames) (h : writeTables t s = .ok n s') :
    s.Takes t.rows s' := by
  rw [writeTables] at h
  cases hall : (t.entries.mapM fun e => insertAll e.1 e.2) s with
  | error e s₁ =>
    rw [hall] at h
    cases h
  | ok counts written =>
    rw [hall] at h
    cases h
    -- the tables stay the same ones, so that the next is found as well
    let R (rows : String → List Record) (a b : Store) : Prop :=
      a.database.Distinct → (∀ table ∈ t.keys, table ∈ a.tableNames) → a.Takes rows b
    refine Tables.rel_of_mapM (R := R) (fun s _ _ => .refl s) ?_ t.nodup_keys ?_ hall hd ht
    · intro rs more a b c hab hbc hda hta
      have htakes := hab hda hta
      have hnames : b.tableNames = a.tableNames := htakes.database.names
      exact htakes.trans (hbc (htakes.database.distinct hda) (hnames ▸ hta))
    · intro e he a m b hw hda hta
      exact insertAll_takes hda (hta e.1 (List.mem_map.2 ⟨e, he, rfl⟩)) hw

/-- A flush that fails leaves the database alone. -/
theorem writeTables_error {s s' : Store} {t : Tables} {e : StoreError} (h : writeTables t s = .error e s') :
    s' = { s with warnings := s.warnings ++ [.flushRolledBack] } := by
  rw [writeTables] at h
  split at h
  · cases h
  · cases h
    rfl

end Store

end Tabulate
