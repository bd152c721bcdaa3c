import Tabulate.Proofs.Stores

/-! Rows that go in one after the other. A statement that inserts several records does what as many
statements of one record do, as long as it binds no more values than a statement may. -/
namespace Tabulate

/-! ### Tables -/

namespace Table

def insertRecord? (t : Table) (r : Record) : Option Table :=
  t.insert? ((t.columns.map Column.name).map (Store.valueOf r))

theorem insertRecord?_takesIn {t t' : Table} {r : Record} (h : t.insertRecord? r = some t') :
    t.TakesIn [r] t' :=
  insert?_takesIn h

/-- The columns are read once for all rows of a statement. They do not change while it is carried out. -/
theorem foldlM_insert?_eq {t : Table} {names : List String} (rs : List Record)
    (hn : t.columns.map Column.name = names) :
    (rs.map fun r => names.map (Store.valueOf r)).foldlM insert? t = rs.foldlM insertRecord? t := by
  induction rs generalizing t with
  | nil => rfl
  | cons r rs ih =>
    rw [List.map_cons, List.foldlM_cons, List.foldlM_cons, insertRecord?, hn]
    cases hr : t.insert? (names.map (Store.valueOf r)) with
    | none => rfl
    | some t' =>
      have hin : t.TakesIn [r] t' := insert?_takesIn (by rw [hn]; exact hr)
      apply ih
      rw [hin.columns, hn]

/-- Where no column is a key, every record can be inserted. -/
theorem insertRecord?_of_keyless {t : Table} (hk : ∀ c ∈ t.columns, c.primaryKey = false) (r : Record) :
    ∃ t', t.insertRecord? r = some t' := by
  have hkey : t.columns.findIdx? Column.primaryKey = none := by
    rw [List.findIdx?_eq_none_iff]
    exact hk
  have hnumber : t.rowNumberColumn? = none := by
    rw [rowNumberColumn?, List.findIdx?_eq_none_iff]
    intro c hc
    rw [hk c hc, Bool.false_and]
  simp [insertRecord?, insert?, numbered?, admits, hkey, hnumber]

end Table

/-! ### Databases -/

namespace Database

def addRecord? (d : Database) (table : String) (r : Record) : Option Database := do
  let t ← d.table? table
  if t.columns.isEmpty then none
  else some (d.update (← t.insertRecord? r))

def addRecords? (d : Database) (table : String) (rs : List Record) : Option Database :=
  rs.foldlM (fun d r => d.addRecord? table r) d

def addAll? (d : Database) (es : List (String × List Record)) : Option Database :=
  es.foldlM (fun d e => d.addRecords? e.1 e.2) d

def rowsNamed (es : List (String × List Record)) (table : String) : List Record :=
  es.flatMap fun e => if sameName table e.1 then e.2 else []

section Lookup
variable {d d' : Database} {t t' : Table} {table : String} {rows : String → List Record}

theorem mem_of_table? (h : d.table? table = some t) : t ∈ d.tables := List.mem_of_find?_eq_some h

theorem sameName_of_table? (h : d.table? table = some t) : sameName t.name table = true := by
  simpa using List.find?_some h

theorem table?_update (d : Database) (t : Table) (table : String) :
    (d.update t).table? table = (d.table? table).map fun u => if u.name = t.name then t else u := by
  have hname : (fun u : Table => sameName (if u.name = t.name then t else u).name table) =
      fun u => sameName u.name table := by
    funext u
    split
    · next h => rw [h]
    · rfl
  rw [table?, update, List.find?_map, table?]
  exact congrArg (fun p => (d.tables.find? p).map _) hname

theorem update_update (d : Database) (h : t'.name = t.name) : (d.update t).update t' = d.update t' := by
  rw [update, update, update, List.map_map]
  congr 1
  apply List.map_congr_left
  intro u _
  by_cases hu : u.name = t.name <;> simp [h, hu]

theorem update_self (hd : d.Distinct) (ht : t ∈ d.tables) : d.update t = d := by
  have hmap : d.tables.map (fun u => if u.name = t.name then t else u) = d.tables.map id := by
    apply List.map_congr_left
    intro u hu
    split
    · next h => exact hd.eq_of_sameName ht hu (by simp [sameName, h])
    · rfl
  rw [update, hmap, List.map_id]

/-- Tables that take in records keep their columns. -/
theorem Takes.columns_table? (h : d.Takes rows d') (table : String) :
    (d'.table? table).map Table.columns = (d.table? table).map Table.columns := by
  obtain ⟨ts⟩ := d
  obtain ⟨ts'⟩ := d'
  simp only [Takes, table?] at h ⊢
  induction h with
  | nil => rfl
  | cons hin _ ih =>
    rw [List.find?_cons, List.find?_cons, hin.name]
    split
    · rw [Option.map_some, Option.map_some, hin.columns]
    · exact ih

/-- A table that is found has taken in its share. -/
theorem Takes.table? (h : d.Takes rows d') (ht : d.table? table = some t) :
    ∃ t', d'.table? table = some t' ∧ t.TakesIn (rows t.name) t' := by
  obtain ⟨ts⟩ := d
  obtain ⟨ts'⟩ := d'
  simp only [Takes, Database.table?] at h ht ⊢
  induction h with
  | nil => cases ht
  | @cons u u' _ _ hin _ ih =>
    rw [List.find?_cons] at ht
    rw [List.find?_cons, hin.name]
    split at ht
    · cases ht
      exact ⟨u', rfl, hin⟩
    · exact ih ht

theorem Takes.congr {more : String → List Record} (h : d.Takes rows d')
    (hrows : ∀ u ∈ d.tables, rows u.name = more u.name) : d.Takes more d' := by
  obtain ⟨ts⟩ := d
  obtain ⟨ts'⟩ := d'
  simp only [Takes] at h hrows ⊢
  induction h with
  | nil => exact .nil
  | @cons u u' us us' hin _ ih =>
    refine .cons ?_ (ih fun v hv => hrows v (List.mem_cons_of_mem u hv))
    rw [← hrows u (by simp)]
    exact hin

end Lookup

section Records
variable {d d' : Database} {t : Table} {table : String} {r : Record} {rs : List Record}

theorem addRecord?_of_table? (ht : d.table? table = some t) (hc : t.columns ≠ []) (r : Record) :
    d.addRecord? table r = (t.insertRecord? r).map d.update := by
  rw [addRecord?, ht]
  cases hr : t.insertRecord? r <;> simp [hc, hr]

theorem addRecord?_eq_some (h : d.addRecord? table r = some d') :
    ∃ t t', d.table? table = some t ∧ t.columns ≠ [] ∧ t.insertRecord? r = some t' ∧ d' = d.update t' := by
  obtain ⟨t, ht, hrest⟩ := Option.bind_eq_some_iff.1 h
  by_cases hc : t.columns = []
  · simp [hc] at hrest
  · rw [addRecord?_of_table? ht hc] at h
    obtain ⟨t', ht', hd'⟩ := Option.map_eq_some_iff.1 h
    exact ⟨t, t', ht, hc, ht', hd'.symm⟩

/-- A record goes into the table of its name and nowhere else. -/
theorem addRecord?_takes (hd : d.Distinct) (h : d.addRecord? table r = some d') :
    d.Takes (rowsNamed [(table, [r])]) d' := by
  obtain ⟨t, t', ht, -, ht', rfl⟩ := addRecord?_eq_some h
  have hmem := mem_of_table? ht
  have htakes := takes_update hd hmem (Table.insertRecord?_takesIn ht')
  apply htakes.congr
  intro u hu
  have hname : u.name = t.name ↔ sameName u.name table = true := by
    constructor
    · intro h
      rw [h]
      exact sameName_of_table? ht
    · intro h
      have hsame : sameName u.name t.name = true := by
        have htable := sameName_of_table? ht
        simp only [sameName, decide_eq_true_eq] at h htable ⊢
        rw [h, htable]
      rw [hd.eq_of_sameName hu hmem hsame]
  simp [Tables.only, rowsNamed, hname]

theorem addRecords?_takes (hd : d.Distinct) (h : d.addRecords? table rs = some d') :
    d.Takes (rowsNamed [(table, rs)]) d' := by
  induction rs generalizing d with
  | nil =>
    cases h
    apply (Takes.refl _).congr
    intro u _
    simp [rowsNamed]
  | cons r rs ih =>
    rw [addRecords?, List.foldlM_cons] at h
    obtain ⟨d₁, hr, h⟩ := Option.bind_eq_some_iff.1 h
    have hfirst := addRecord?_takes hd hr
    have hrest := ih (hfirst.distinct hd) h
    apply (hfirst.trans hrest).congr
    intro u _
    by_cases hu : sameName u.name table = true <;> simp [rowsNamed, hu]

theorem addAll?_takes {es : List (String × List Record)} (hd : d.Distinct) (h : d.addAll? es = some d') :
    d.Takes (rowsNamed es) d' := by
  induction es generalizing d with
  | nil =>
    cases h
    exact .refl _
  | cons e es ih =>
    rw [addAll?, List.foldlM_cons] at h
    obtain ⟨d₁, he, h⟩ := Option.bind_eq_some_iff.1 h
    have hfirst := addRecords?_takes hd he
    have hrest := ih (hfirst.distinct hd) h
    apply (hfirst.trans hrest).congr
    intro u _
    simp [rowsNamed]

/-- Going back to the database after every record makes no difference. -/
theorem addRecords?_of_table? (hd : d.Distinct) (ht : d.table? table = some t) (hc : t.columns ≠ [])
    (rs : List Record) : d.addRecords? table rs = (rs.foldlM Table.insertRecord? t).map d.update := by
  induction rs generalizing d t with
  | nil => exact congrArg some (update_self hd (mem_of_table? ht)).symm
  | cons r rs ih =>
    rw [addRecords?, List.foldlM_cons, List.foldlM_cons, addRecord?_of_table? ht hc]
    cases hr : t.insertRecord? r with
    | none => rfl
    | some t' =>
      have hin := Table.insertRecord?_takesIn hr
      have ht' : (d.update t').table? table = some t' := by
        rw [table?_update, ht, Option.map_some, if_pos hin.name.symm]
      have hd' : (d.update t').Distinct := (takes_update hd (mem_of_table? ht) hin).distinct hd
      have hrest := ih hd' ht' (by rwa [hin.columns])
      rw [addRecords?] at hrest
      simp only [Option.map_some, Option.bind_eq_bind, Option.bind_some, hrest]
      cases hfold : rs.foldlM Table.insertRecord? t' with
      | none => rfl
      | some t'' =>
        have hin' : t'.TakesIn rs t'' := by
          apply Table.foldlM_insert?_takesIn
          rw [Table.foldlM_insert?_eq rs rfl]
          exact hfold
        rw [Option.map_some, Option.map_some, update_update d hin'.name]

/-- A statement of several records is refused if it binds too many values, and otherwise does what
one statement after the other does. -/
theorem insert?_records (hd : d.Distinct) (ht : d.table? table = some t) (hc : t.columns ≠ [])
    (rs : List Record) :
    d.insert? table (rs.map fun r => (t.columns.map Column.name).map (Store.valueOf r)) =
      if rs.length * t.columns.length > maxBoundValues then none else d.addRecords? table rs := by
  rw [insert?, ht, addRecords?_of_table? hd ht hc]
  simp only [Option.bind_eq_bind, Option.bind_some, List.length_map]
  split
  · rfl
  · rw [Table.foldlM_insert?_eq rs rfl]
    cases rs.foldlM Table.insertRecord? t <;> rfl

theorem addRecords?_append (d : Database) (table : String) (rs more : List Record) :
    d.addRecords? table (rs ++ more) = (d.addRecords? table rs).bind fun d => d.addRecords? table more := by
  rw [addRecords?, List.foldlM_append]
  rfl

theorem addAll?_append (d : Database) (es fs : List (String × List Record)) :
    d.addAll? (es ++ fs) = (d.addAll? es).bind fun d => d.addAll? fs := by
  rw [addAll?, List.foldlM_append]
  rfl

/-- Records one at a time are the records of a table. -/
theorem addAll?_singles (d : Database) (table : String) (rs : List Record) :
    d.addAll? (rs.map fun r => (table, [r])) = d.addRecords? table rs := by
  rw [addAll?, addRecords?, List.foldlM_map]
  congr 1
  funext d r
  rw [addRecords?, List.foldlM_cons]
  cases d.addRecord? table r <;> rfl

/-- Where no table that is meant has a key, all records can be inserted. -/
theorem addRecords?_of_keyless (hd : d.Distinct) (ht : d.table? table = some t) (hc : t.columns ≠ [])
    (hk : ∀ c ∈ t.columns, c.primaryKey = false) (rs : List Record) :
    ∃ d', d.addRecords? table rs = some d' := by
  induction rs generalizing d t with
  | nil => exact ⟨d, rfl⟩
  | cons r rs ih =>
    obtain ⟨t', hr⟩ := Table.insertRecord?_of_keyless hk r
    have hin := Table.insertRecord?_takesIn hr
    have ht' : (d.update t').table? table = some t' := by
      rw [table?_update, ht, Option.map_some, if_pos hin.name.symm]
    have hd' : (d.update t').Distinct := (takes_update hd (mem_of_table? ht) hin).distinct hd
    obtain ⟨d', hrest⟩ := ih hd' ht' (by rwa [hin.columns]) (by rwa [hin.columns])
    refine ⟨d', ?_⟩
    rw [addRecords?, List.foldlM_cons, addRecord?_of_table? ht hc, hr]
    exact hrest

end Records

end Database

end Tabulate
