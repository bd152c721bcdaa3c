import Tabulate.Proofs.Insertions

/-! Limits on the values that are bound to a statement. A flush cuts records into statements by such a
limit, and whatever the limit is, it leaves what it would leave if every record had a statement of
its own, unless a statement binds more values than the database allows. -/
namespace Tabulate

open Effects

namespace Store

/-! ### Statements -/

section Chunks
variable {α : Type} {k : Nat} {xs : List α}

theorem mem_chunks_go {fuel : Nat} {b : List α} (hk : 0 < k) (h : b ∈ chunks.go k fuel xs) :
    b ≠ [] ∧ b.length ≤ min k xs.length := by
  induction fuel generalizing xs with
  | zero => cases h
  | succ fuel ih =>
    cases xs with
    | nil => cases h
    | cons x xs =>
      rw [chunks.go, List.mem_cons] at h
      cases h with
      | inl h =>
        rw [h, List.length_take]
        refine ⟨fun hnil => ?_, Nat.le_refl _⟩
        have hlength := congrArg List.length hnil
        rw [List.length_take, List.length_cons, List.length_nil] at hlength
        omega
      | inr h =>
        obtain ⟨hne, hb⟩ := ih h
        rw [List.length_drop] at hb
        exact ⟨hne, by omega⟩

/-- No piece is empty, and none has more members than are asked for. -/
theorem mem_chunks {b : List α} (hk : 0 < k) (h : b ∈ chunks k xs) : b ≠ [] ∧ b.length ≤ min k xs.length :=
  mem_chunks_go hk h

/-- The first piece is as long as a piece can be. -/
theorem take_mem_chunks (k : Nat) (hx : xs ≠ []) : xs.take k ∈ chunks k xs := by
  cases xs with
  | nil => exact absurd rfl hx
  | cons x xs => simp [chunks, chunks.go]

/-- Rows of one width are found again in what they come to one after the other. -/
theorem chunks_go_flatten {fuel : Nat} {rows : List (List α)} (hk : 0 < k) (hr : ∀ r ∈ rows, r.length = k)
    (hf : rows.flatten.length ≤ fuel) : chunks.go k fuel rows.flatten = rows := by
  induction rows generalizing fuel with
  | nil => cases fuel <;> rfl
  | cons r rows ih =>
    have hlength : r.length = k := hr r (by simp)
    have hrest : ∀ r' ∈ rows, r'.length = k := fun r' h => hr r' (List.mem_cons_of_mem r h)
    rw [List.flatten_cons, List.length_append] at hf
    cases fuel with
    | zero => omega
    | succ fuel =>
      cases r with
      | nil => simp at hlength; omega
      | cons x r =>
        rw [List.flatten_cons, List.cons_append, chunks.go, ← List.cons_append, List.take_left' hlength,
          List.drop_left' hlength, ih hrest (by rw [List.length_cons] at hf; omega)]

theorem chunks_flatten {rows : List (List α)} (hk : 0 < k) (hr : ∀ r ∈ rows, r.length = k) :
    chunks k rows.flatten = rows :=
  chunks_go_flatten hk hr (Nat.le_refl _)

end Chunks

structure Insertion where
  table : String
  columns : List String
  records : List Record

namespace Insertion

def rows (i : Insertion) : List (List (Option String)) := i.records.map fun r => i.columns.map (valueOf r)

def values (i : Insertion) : List (Option String) := i.rows.flatten

def text (i : Insertion) : String := Statement.insert i.table i.columns i.records.length

def perform (i : Insertion) : Storing Unit := execute i.text (·.insert? i.table i.rows)

theorem length_values (i : Insertion) : i.values.length = i.records.length * i.columns.length := by
  rw [values, rows, List.length_flatten, List.map_map]
  simp [Function.comp_def, List.map_const']

end Insertion

def insertions (s : Store) (table : String) (rs : List Record) : List Insertion :=
  let names := (s.columns table).map Column.name
  (chunks (s.config.maxVars / names.length) rs).map (⟨table, names, ·⟩)

/-- A statement that is worth making: it inserts at least one record, binds no more values than the
limit, and its values are cut into rows where the columns are listed anew. -/
structure Insertion.Bounded (i : Insertion) (limit : Nat) : Prop where
  records : i.records ≠ []
  values : i.values.length ≤ limit
  rows : chunks i.columns.length i.values = i.rows

theorem insertions_bounded {s : Store} {table : String} {rs : List Record} (hc : s.columns table ≠ [])
    (hm : (s.columns table).length ≤ s.config.maxVars) :
    ∀ i ∈ s.insertions table rs, i.Bounded s.config.maxVars := by
  intro i hi
  obtain ⟨b, hb, rfl⟩ := List.mem_map.1 hi
  have hwidth : 0 < ((s.columns table).map Column.name).length := by
    rw [List.length_map]
    exact List.length_pos_iff.2 hc
  have hsize : 0 < s.config.maxVars / ((s.columns table).map Column.name).length := by
    apply Nat.div_pos _ hwidth
    rwa [List.length_map]
  obtain ⟨hne, hlength⟩ := mem_chunks hsize hb
  refine ⟨hne, ?_, ?_⟩
  · rw [Insertion.length_values]
    calc b.length * ((s.columns table).map Column.name).length
        ≤ s.config.maxVars / ((s.columns table).map Column.name).length *
            ((s.columns table).map Column.name).length := Nat.mul_le_mul_right _ (by omega)
      _ ≤ s.config.maxVars := Nat.div_mul_le_self ..
  · apply chunks_flatten hwidth
    intro r hr
    obtain ⟨record, -, rfl⟩ := List.mem_map.1 hr
    rw [List.length_map]

/-- What inserting records does, statement by statement. It does nothing where there are none, it is
refused before any statement, or it makes statements within the limit one after the other; then it has
not divided by zero, nor cut the records into pieces of no members. -/
def KeepsLimit (s : Store) (table : String) (rs : List Record) : Prop :=
  (rs = [] ∧ insertAll table rs s = .ok 0 s) ∨
  (rs ≠ [] ∧ s.columns table = [] ∧ insertAll table rs s = .error (.noTable table) s) ∨
  (rs ≠ [] ∧ s.config.maxVars < (s.columns table).length ∧
    insertAll table rs s = .error (.tooWide table (s.columns table).length s.config.maxVars) s) ∨
  (rs ≠ [] ∧ 0 < (s.columns table).length ∧ 0 < s.config.maxVars / (s.columns table).length ∧
    insertAll table rs s =
      (do (s.insertions table rs).forM Insertion.perform; return rs.length : Storing Nat) s ∧
    ∀ i ∈ s.insertions table rs, i.Bounded s.config.maxVars)

theorem keepsLimit (s : Store) (table : String) (rs : List Record) : s.KeepsLimit table rs := by
  by_cases hrs : rs = []
  · subst hrs
    exact .inl ⟨rfl, rfl⟩
  have hmore : rs.isEmpty = false := by simpa using hrs
  have hlength : ((s.columns table).map Column.name).length = (s.columns table).length := by simp
  by_cases hc : s.columns table = []
  · refine .inr (.inl ⟨hrs, hc, ?_⟩)
    rw [insertAll, if_neg (by simp [hmore])]
    show (if ((s.columns table).map Column.name).isEmpty then _ else _ : Storing Nat) s = _
    rw [if_pos (by simp [hc])]
    rfl
  by_cases hm : s.config.maxVars < (s.columns table).length
  · refine .inr (.inr (.inl ⟨hrs, hm, ?_⟩))
    rw [insertAll, if_neg (by simp [hmore])]
    show (if ((s.columns table).map Column.name).isEmpty then _ else
      if ((s.columns table).map Column.name).length > s.config.maxVars then _ else _ : Storing Nat) s = _
    rw [if_neg (by simp [hc]), if_pos (by rwa [hlength]), ← hlength]
    rfl
  · have hwidth : 0 < (s.columns table).length := List.length_pos_iff.2 hc
    refine .inr (.inr (.inr ⟨hrs, hwidth, Nat.div_pos (by omega) hwidth, ?_, insertions_bounded hc (by omega)⟩))
    rw [insertAll, if_neg (by simp [hmore])]
    show (if ((s.columns table).map Column.name).isEmpty then _ else
      if ((s.columns table).map Column.name).length > s.config.maxVars then _ else
        (do
          (chunks (s.config.maxVars / ((s.columns table).map Column.name).length) rs).forM fun batch =>
            Insertion.perform ⟨table, (s.columns table).map Column.name, batch⟩
          return rs.length : Storing Nat) : Storing Nat) s = _
    rw [if_neg (by simp [hc]), if_neg (by rwa [hlength]), insertions]
    exact congrArg (fun x : Storing Unit => (x >>= fun _ => pure rs.length) s) List.forM_map.symm

/-- Statements are carried out one after the other on the database. -/
theorem forM_perform_eq_ok {is : List Insertion} {s s' : Store} :
    is.forM Insertion.perform s = .ok () s' ↔
      ∃ d, is.foldlM (fun d i => d.insert? i.table i.rows) s.database = some d ∧
        s' = { s with database := d } := by
  induction is generalizing s with
  | nil => simp [pure_eq_ok, eq_comm]
  | cons i is ih =>
    rw [List.foldlM_cons]
    constructor
    · intro h
      obtain ⟨_, s₁, hi, h⟩ := bind_eq_ok.1 h
      obtain ⟨d₁, hd₁, rfl⟩ := execute_eq_ok.1 hi
      obtain ⟨d, hd, rfl⟩ := ih.1 h
      exact ⟨d, by rw [hd₁]; exact hd, rfl⟩
    · intro h
      obtain ⟨d, hd, rfl⟩ := h
      obtain ⟨d₁, hd₁, hd⟩ := Option.bind_eq_some_iff.1 hd
      exact bind_eq_ok.2 ⟨(), _, execute_eq_ok.2 ⟨d₁, hd₁, rfl⟩, ih.2 ⟨d, hd, rfl⟩⟩

end Store

/-! ### Limits -/

namespace Database

def width (d : Database) (table : String) : Nat := (((d.table? table).map Table.columns).getD []).length

def mostBound (d : Database) (m : Nat) (e : String × List Record) : Nat :=
  min (m / d.width e.1) e.2.length * d.width e.1

def Allows (d : Database) (es : List (String × List Record)) (m : Nat) : Prop :=
  ∀ e ∈ es, d.width e.1 ≤ m ∧ d.mostBound m e ≤ maxBoundValues

instance (d : Database) (es : List (String × List Record)) (m : Nat) : Decidable (d.Allows es m) :=
  inferInstanceAs (Decidable (∀ e ∈ es, _))

section Limits
variable {d d' : Database} {t : Table} {table : String} {rows : String → List Record}

/-- A limit that a statement itself can keep makes no statement too large. -/
theorem mostBound_le (d : Database) (m : Nat) (e : String × List Record) : d.mostBound m e ≤ m := by
  calc d.mostBound m e ≤ m / d.width e.1 * d.width e.1 := Nat.mul_le_mul_right _ (Nat.min_le_left ..)
    _ ≤ m := Nat.div_mul_le_self ..

theorem allows_of_le {es : List (String × List Record)} {m : Nat} (hw : ∀ e ∈ es, d.width e.1 ≤ m)
    (hm : m ≤ maxBoundValues) : d.Allows es m :=
  fun e he => ⟨hw e he, Nat.le_trans (d.mostBound_le m e) hm⟩

theorem Takes.width (h : d.Takes rows d') (table : String) : d'.width table = d.width table := by
  rw [Database.width, h.columns_table?, Database.width]

/-- Batches of records go in as their records do, unless one of them is too large for a statement. -/
theorem foldlM_insert?_batches {cs : List Column} (batches : List (List Record)) (hd : d.Distinct)
    (ht : (d.table? table).map Table.columns = some cs) (hc : cs ≠ []) :
    batches.foldlM (fun d b =>
        d.insert? table (b.map fun r => (cs.map Column.name).map (Store.valueOf r))) d =
      if ∀ b ∈ batches, b.length * cs.length ≤ maxBoundValues then d.addRecords? table batches.flatten
      else none := by
  induction batches generalizing d with
  | nil => rfl
  | cons b batches ih =>
    obtain ⟨t, htable, rfl⟩ := Option.map_eq_some_iff.1 ht
    rw [List.foldlM_cons, insert?_records hd htable hc, List.flatten_cons, addRecords?_append]
    by_cases hb : b.length * t.columns.length > maxBoundValues
    · have hno : ¬∀ b' ∈ b :: batches, b'.length * t.columns.length ≤ maxBoundValues := by
        intro hall
        have hsmall := hall b (by simp)
        omega
      rw [if_pos hb, if_neg hno]
      rfl
    · rw [if_neg hb]
      cases hrs : d.addRecords? table b with
      | none => simp
      | some d₁ =>
        have htakes := addRecords?_takes hd hrs
        have hcols : (d₁.table? table).map Table.columns = some t.columns := by
          rw [htakes.columns_table?, htable, Option.map_some]
        have hrest := ih (htakes.distinct hd) hcols
        simp only [Option.bind_eq_bind, Option.bind_some, hrest, List.forall_mem_cons]
        by_cases hall : ∀ b' ∈ batches, b'.length * t.columns.length ≤ maxBoundValues
        · rw [if_pos hall, if_pos ⟨by omega, hall⟩]
        · rw [if_neg hall, if_neg fun h => hall h.2]

theorem addRecords?_of_no_columns {rs : List Record} (ht : (d.table? table).map Table.columns = none ∨
    (d.table? table).map Table.columns = some []) (hrs : rs ≠ []) : d.addRecords? table rs = none := by
  cases rs with
  | nil => exact absurd rfl hrs
  | cons r rs =>
    have hnone : d.addRecord? table r = none := by
      cases h : d.addRecord? table r with
      | none => rfl
      | some d' =>
        obtain ⟨t, t', ht', hc, -⟩ := addRecord?_eq_some h
        simp [ht', hc] at ht
    rw [addRecords?, List.foldlM_cons, hnone]
    rfl

end Limits

end Database

namespace Store

section Outcomes
variable {s s' : Store} {table : String} {rs : List Record} {n : Nat}

/-- Every piece is small enough if the first one is. -/
theorem forall_chunks_iff {k w limit : Nat} (hk : 0 < k) (rs : List Record) :
    (∀ b ∈ chunks k rs, b.length * w ≤ limit) ↔ min k rs.length * w ≤ limit := by
  constructor
  · intro h
    by_cases hrs : rs = []
    · simp [hrs]
    · have hfirst := h (rs.take k) (take_mem_chunks k hrs)
      rwa [List.length_take] at hfirst
  · intro h b hb
    exact Nat.le_trans (Nat.mul_le_mul_right w (mem_chunks hk hb).2) h

theorem table?_of_columns (h : 0 < (s.columns table).length) :
    (s.database.table? table).map Table.columns = some (s.columns table) := by
  rw [columns] at h ⊢
  cases ht : (s.database.table? table).map Table.columns with
  | none =>
    rw [ht] at h
    cases h
  | some cs => rfl

/-- The statements of an insertion lead to what the records add, unless one binds too much. -/
theorem insertions_fold (hd : s.database.Distinct) (hpos : 0 < (s.columns table).length)
    (hsize : 0 < s.config.maxVars / (s.columns table).length) (rs : List Record) :
    (s.insertions table rs).foldlM (fun d i => d.insert? i.table i.rows) s.database =
      if s.database.mostBound s.config.maxVars (table, rs) ≤ maxBoundValues then
        s.database.addRecords? table rs else none := by
  have hbatches := Database.foldlM_insert?_batches (chunks (s.config.maxVars / (s.columns table).length) rs) hd
    (table?_of_columns hpos) (List.length_pos_iff.1 hpos)
  rw [insertions, List.foldlM_map]
  simp only [List.length_map, Insertion.rows]
  rw [hbatches, flatten_chunks hsize, if_congr (forall_chunks_iff hsize rs) rfl rfl]
  rfl

/-- Where the limit covers the columns, records are inserted as one after the other would be, if and
only if no statement binds more values than it may. -/
theorem insertAll_eq_ok (hd : s.database.Distinct) (hw : s.database.width table ≤ s.config.maxVars) :
    insertAll table rs s = .ok n s' ↔
      s.database.mostBound s.config.maxVars (table, rs) ≤ maxBoundValues ∧ n = rs.length ∧
        ∃ d, s.database.addRecords? table rs = some d ∧ s' = { s with database := d } := by
  have hcolumns : (s.columns table).length = s.database.width table := rfl
  obtain ⟨rfl, h⟩ | ⟨hrs, hc, h⟩ | ⟨-, hm, -⟩ | ⟨hrs, hpos, hsize, h, -⟩ := s.keepsLimit table rs
  · have hsmall : s.database.mostBound s.config.maxVars (table, []) ≤ maxBoundValues := by
      simp [Database.mostBound]
    rw [h]
    constructor
    · intro h
      cases h
      exact ⟨hsmall, rfl, _, rfl, rfl⟩
    · intro h
      obtain ⟨-, rfl, _, ⟨⟩, rfl⟩ := h
      rfl
  · have hnone : s.database.addRecords? table rs = none := by
      apply Database.addRecords?_of_no_columns _ hrs
      rw [columns] at hc
      cases ht : (s.database.table? table).map Table.columns with
      | none => exact .inl rfl
      | some cs =>
        rw [ht] at hc
        exact .inr (congrArg some hc)
    simp [h, hnone]
  · omega
  · have hfold := insertions_fold hd hpos hsize rs
    rw [h, bind_eq_ok]
    constructor
    · intro hrun
      obtain ⟨_, s₁, hall, hp⟩ := hrun
      obtain ⟨rfl, rfl⟩ := pure_eq_ok.1 hp
      obtain ⟨d, hd', rfl⟩ := forM_perform_eq_ok.1 hall
      rw [hfold] at hd'
      split at hd'
      · next hbound => exact ⟨hbound, rfl, d, hd', rfl⟩
      · cases hd'
    · intro hrun
      obtain ⟨hbound, rfl, d, hd', rfl⟩ := hrun
      rw [if_pos hbound] at hfold
      exact ⟨(), _, forM_perform_eq_ok.2 ⟨d, hfold.trans hd', rfl⟩, rfl⟩

end Outcomes

/-! ### Flushes -/

def flush (es : List (String × List Record)) : Storing Nat := fun s =>
  match (es.mapM fun e => insertAll e.1 e.2) s with
  | .ok counts written => .ok (total counts) written
  | .error e _ => .error e { s with warnings := s.warnings ++ [.flushRolledBack] }

def singles (es : List (String × List Record)) : List (String × List Record) :=
  es.flatMap fun e => e.2.map fun r => (e.1, [r])

def writeSingly (t : Tables) : Storing Nat := flush (singles t.entries)

def withLimit (s : Store) (m : Nat) : Store := { s with config := { s.config with maxVars := m } }

section Flushes
variable {s s' : Store} {es : List (String × List Record)} {n : Nat}

theorem mapM_insertAll_eq_ok {ns : List Nat} (hd : s.database.Distinct)
    (hw : ∀ e ∈ es, s.database.width e.1 ≤ s.config.maxVars) :
    (es.mapM fun e => insertAll e.1 e.2) s = .ok ns s' ↔
      (∀ e ∈ es, s.database.mostBound s.config.maxVars e ≤ maxBoundValues) ∧
        ns = es.map (·.2.length) ∧
        ∃ d, s.database.addAll? es = some d ∧ s' = { s with database := d } := by
  induction es generalizing s ns with
  | nil =>
    constructor
    · intro h
      cases h
      exact ⟨nofun, rfl, _, rfl, rfl⟩
    · intro h
      obtain ⟨-, rfl, _, ⟨⟩, rfl⟩ := h
      rfl
  | cons e es ih =>
    have hfirst {k s₁} : insertAll e.1 e.2 s = .ok k s₁ ↔ _ := insertAll_eq_ok hd (hw e (by simp))
    -- The first entry changes no table's columns, so the rest is bounded as it was before.
    have hrest (d : Database) (hadd : s.database.addRecords? e.1 e.2 = some d) (ks : List Nat) :
        (es.mapM fun e => insertAll e.1 e.2) { s with database := d } = .ok ks s' ↔
          (∀ f ∈ es, s.database.mostBound s.config.maxVars f ≤ maxBoundValues) ∧
            ks = es.map (·.2.length) ∧
            ∃ d', d.addAll? es = some d' ∧ s' = { s with database := d' } := by
      have htakes := Database.addRecords?_takes hd hadd
      have hnext := @ih { s with database := d } ks (htakes.distinct hd) fun f hf => by
        rw [htakes.width]
        exact hw f (List.mem_cons_of_mem e hf)
      simpa only [Database.mostBound, htakes.width] using hnext
    rw [List.mapM_cons, List.forall_mem_cons, List.map_cons, Database.addAll?, List.foldlM_cons]
    constructor
    · intro h
      obtain ⟨k, s₁, he, h⟩ := bind_eq_ok.1 h
      obtain ⟨ks, s₂, hes, hp⟩ := bind_eq_ok.1 h
      obtain ⟨rfl, rfl⟩ := pure_eq_ok.1 hp
      obtain ⟨hbound, rfl, d, hadd, rfl⟩ := hfirst.1 he
      obtain ⟨hbounds, rfl, d', hadd', rfl⟩ := (hrest d hadd ks).1 hes
      exact ⟨⟨hbound, hbounds⟩, rfl, d', by rw [hadd]; exact hadd', rfl⟩
    · intro h
      obtain ⟨⟨hbound, hbounds⟩, rfl, d', hall, rfl⟩ := h
      obtain ⟨d, hadd, hadd'⟩ := Option.bind_eq_some_iff.1 hall
      have he := hfirst.2 ⟨hbound, rfl, d, hadd, rfl⟩
      have hes := (hrest d hadd _).2 ⟨hbounds, rfl, d', hadd', rfl⟩
      exact bind_eq_ok.2 ⟨_, _, he, bind_eq_ok.2 ⟨_, _, hes, rfl⟩⟩

/-- A flush succeeds if no statement is too large and the records can be inserted one after the other. -/
theorem flush_eq_ok (hd : s.database.Distinct) (hw : ∀ e ∈ es, s.database.width e.1 ≤ s.config.maxVars) :
    flush es s = .ok n s' ↔
      (∀ e ∈ es, s.database.mostBound s.config.maxVars e ≤ maxBoundValues) ∧
        n = total (es.map (·.2.length)) ∧
        ∃ d, s.database.addAll? es = some d ∧ s' = { s with database := d } := by
  have hall {ns} : (es.mapM fun e => insertAll e.1 e.2) s = .ok ns s' ↔ _ := mapM_insertAll_eq_ok hd hw
  rw [flush]
  cases hrun : (es.mapM fun e => insertAll e.1 e.2) s with
  | ok counts written =>
    rw [hrun] at hall
    constructor
    · intro h
      cases h
      obtain ⟨hbound, rfl, hadd⟩ := hall.1 rfl
      exact ⟨hbound, rfl, hadd⟩
    · intro h
      obtain ⟨hbound, rfl, hadd⟩ := h
      have hok := hall.2 ⟨hbound, rfl, hadd⟩
      cases hok
      rfl
  | error e written =>
    rw [hrun] at hall
    constructor
    · intro h
      cases h
    · intro h
      obtain ⟨hbound, rfl, hadd⟩ := h
      exact absurd (hall.2 ⟨hbound, rfl, hadd⟩) nofun

/-- A flush that does not succeed leaves the database alone. -/
theorem flush_of_not_ok (h : ∀ n s', flush es s ≠ .ok n s') :
    ∃ e s', flush es s = .error e s' ∧ s'.database = s.database := by
  rw [flush] at h ⊢
  cases hrun : (es.mapM fun e => insertAll e.1 e.2) s with
  | ok counts written =>
    rw [hrun] at h
    exact absurd rfl (h (total counts) written)
  | error e written => exact ⟨e, _, rfl, rfl⟩

theorem addAll?_singles (d : Database) (es : List (String × List Record)) :
    d.addAll? (singles es) = d.addAll? es := by
  induction es generalizing d with
  | nil => rfl
  | cons e es ih =>
    have hsplit : singles (e :: es) = (e.2.map fun r => (e.1, [r])) ++ singles es := by simp [singles]
    rw [hsplit, Database.addAll?_append, Database.addAll?_singles, Database.addAll?, List.foldlM_cons]
    cases d.addRecords? e.1 e.2 with
    | none => rfl
    | some d' => exact ih d'

theorem total_singles (es : List (String × List Record)) :
    total ((singles es).map (·.2.length)) = total (es.map (·.2.length)) := by
  have hones (rs : List Record) (table : String) :
      total ((rs.map fun r => (table, [r])).map (·.2.length)) = rs.length := by
    induction rs with
    | nil => rfl
    | cons r rs ih =>
      rw [List.map_cons, List.map_cons, total, ih, List.length_cons, List.length_cons, List.length_nil]
      omega
  induction es with
  | nil => rfl
  | cons e es ih =>
    have hsplit : singles (e :: es) = (e.2.map fun r => (e.1, [r])) ++ singles es := by simp [singles]
    rw [hsplit, List.map_append, total_append, hones, ih, List.map_cons, total]

/-- A limit that is good for a flush is good for its records one at a time. -/
theorem allows_singles {d : Database} {m : Nat} (ha : d.Allows es m) : d.Allows (singles es) m := by
  intro f hf
  obtain ⟨e, he, hf⟩ := List.mem_flatMap.1 hf
  obtain ⟨r, hr, rfl⟩ := List.mem_map.1 hf
  obtain ⟨hw, hbound⟩ := ha e he
  have hlength : 0 < e.2.length := List.length_pos_of_mem hr
  refine ⟨hw, Nat.le_trans (Nat.mul_le_mul_right _ ?_) hbound⟩
  have hone : [r].length ≤ e.2.length := hlength
  exact Nat.le_min.2 ⟨Nat.min_le_left .., Nat.le_trans (Nat.min_le_right ..) hone⟩

/-- A flush comes to what inserting one record after the other comes to. -/
theorem flush_of_allows (hd : s.database.Distinct) (ha : s.database.Allows es s.config.maxVars) :
    (s.database.addAll? es = none ∧ ∃ e s', flush es s = .error e s' ∧ s'.database = s.database) ∨
    ∃ d, s.database.addAll? es = some d ∧
      flush es s = .ok (total (es.map (·.2.length))) { s with database := d } := by
  have hok {n s'} : flush es s = .ok n s' ↔ _ := flush_eq_ok hd fun e he => (ha e he).1
  cases hadd : s.database.addAll? es with
  | none =>
    refine .inl ⟨rfl, flush_of_not_ok fun n s' h => ?_⟩
    obtain ⟨-, -, d, hd', -⟩ := hok.1 h
    exact absurd (hadd.symm.trans hd') nofun
  | some d => exact .inr ⟨d, rfl, hok.2 ⟨fun e he => (ha e he).2, rfl, d, hadd, rfl⟩⟩

/-- Both ways to write come to the same under any limit that is good for the flush. -/
theorem write_of_allows {t : Tables} {m : Nat} (hd : s.database.Distinct)
    (ha : s.database.Allows t.entries m) {write : Storing Nat}
    (hwrite : write ∈ [writeTables t, writeSingly t]) :
    (s.database.addAll? t.entries = none ∧
      ∃ e s', write (s.withLimit m) = .error e s' ∧ s'.database = s.database) ∨
    ∃ d s', s.database.addAll? t.entries = some d ∧
      write (s.withLimit m) = .ok t.recordCount s' ∧ s'.database = d := by
  have hflush : ∃ es, s.database.Allows es m ∧ s.database.addAll? es = s.database.addAll? t.entries ∧
      total (es.map (·.2.length)) = t.recordCount ∧ write = flush es := by
    rw [List.mem_pair] at hwrite
    cases hwrite with
    | inl h => exact ⟨t.entries, ha, rfl, t.total_lengths, h⟩
    | inr h =>
      refine ⟨singles t.entries, allows_singles ha, addAll?_singles _ _, ?_, h⟩
      rw [total_singles, Tables.total_lengths]
  obtain ⟨es, hes, hadd, htotal, rfl⟩ := hflush
  rw [← hadd, ← htotal]
  obtain ⟨hnone, hfail⟩ | ⟨d, hd', hok⟩ := flush_of_allows (s := s.withLimit m) hd hes
  · exact .inl ⟨hnone, hfail⟩
  · exact .inr ⟨d, _, hd', hok, rfl⟩

/-- A limit that lets a statement bind more values than it may makes the flush fail. -/
theorem writeTables_beyond {t : Tables} {m : Nat} (hd : s.database.Distinct)
    (hw : ∀ e ∈ t.entries, s.database.width e.1 ≤ m) (hno : ¬s.database.Allows t.entries m) :
    ∃ e s', writeTables t (s.withLimit m) = .error e s' ∧ s'.database = s.database := by
  apply flush_of_not_ok
  intro n s' h
  have hbound := ((flush_eq_ok (s := s.withLimit m) hd hw).1 h).1
  exact hno fun e he => ⟨hw e he, hbound e he⟩

end Flushes

/-- Under all limits that cover the columns and let no statement bind more values than it may, a flush
comes to the same as one record after the other: it fails and leaves the database alone, or all tables
get their records behind their rows. Under a limit that lets a statement bind more it fails. -/
theorem writeTables_within_limits {s : Store} {t : Tables} {m₁ m₂ : Nat} (hd : s.database.Distinct)
    (h₁ : s.database.Allows t.entries m₁) (h₂ : s.database.Allows t.entries m₂) :
    ((∀ m ∈ [m₁, m₂], ∀ write ∈ [writeTables t, writeSingly t], ∃ e s',
        write (s.withLimit m) = .error e s' ∧ s'.database = s.database) ∨
      ∃ d, s.database.Takes (Database.rowsNamed t.entries) d ∧
        ∀ m ∈ [m₁, m₂], ∀ write ∈ [writeTables t, writeSingly t], ∃ s',
          write (s.withLimit m) = .ok t.recordCount s' ∧ s'.database = d) ∧
    (∀ m, (∀ e ∈ t.entries, s.database.width e.1 ≤ m) → ¬s.database.Allows t.entries m →
      ∃ e s', writeTables t (s.withLimit m) = .error e s' ∧ s'.database = s.database) ∧
    ∀ (s₁ : Store) (table : String) (rs : List Record), s₁.KeepsLimit table rs := by
  have hallows : ∀ m ∈ [m₁, m₂], s.database.Allows t.entries m := by simp [h₁, h₂]
  refine ⟨?_, fun m hw hno => ?_, keepsLimit⟩
  · cases hadd : s.database.addAll? t.entries with
    | none =>
      refine .inl fun m hm write hwrite => ?_
      obtain ⟨-, hfail⟩ | ⟨d, s', hsome, -⟩ := write_of_allows hd (hallows m hm) hwrite
      · exact hfail
      · exact absurd (hadd.symm.trans hsome) nofun
    | some d =>
      refine .inr ⟨d, Database.addAll?_takes hd hadd, fun m hm write hwrite => ?_⟩
      obtain ⟨hnone, -⟩ | ⟨d', s', hsome, hok, hs'⟩ := write_of_allows hd (hallows m hm) hwrite
      · exact absurd (hadd.symm.trans hnone) nofun
      · have heq : d = d' := Option.some.inj (hadd.symm.trans hsome)
        exact ⟨s', hok, hs'.trans heq.symm⟩
  · exact writeTables_beyond hd hw hno

end Store

def albumStore : Store where
  config := .inMemory
  address := none
  database := ⟨[⟨"album", [⟨"id", .text, true⟩, ⟨"name", .text, false⟩], [[.text "a", .null]]⟩]⟩

def threeAlbums : Tables :=
  Tables.empty.append "album" (["b", "c", "d"].map fun id => Record.empty.insert "id" (some id))

theorem writeTables_within_limits_albums :
    albumStore.database.Distinct ∧ albumStore.database.Allows threeAlbums.entries 2 ∧
    albumStore.database.Allows threeAlbums.entries 5 ∧
    ∃ d, albumStore.database.Takes (Database.rowsNamed threeAlbums.entries) d ∧
      ∀ m ∈ [2, 5], ∀ write ∈ [Store.writeTables threeAlbums, Store.writeSingly threeAlbums], ∃ s',
        write (albumStore.withLimit m) = .ok 3 s' ∧ s'.database = d := by
  have hd : albumStore.database.Distinct := by decide +kernel
  have h₂ : albumStore.database.Allows threeAlbums.entries 2 := by decide +kernel
  have h₅ : albumStore.database.Allows threeAlbums.entries 5 := by decide +kernel
  refine ⟨hd, h₂, h₅, ?_⟩
  cases (Store.writeTables_within_limits hd h₂ h₅).1 with
  | inl hfail =>
    obtain ⟨e, s', he, -⟩ := hfail 2 (by simp) (Store.writeTables threeAlbums) (by simp)
    have hok : succeeds (fun _ => true) (Store.writeTables threeAlbums (albumStore.withLimit 2)) = true := by
      decide +kernel
    rw [he] at hok
    cases hok
  | inr hsame => exact hsame

def wideTable : Table := ⟨"wide", (List.range 1000).map fun i => ⟨"c" ++ toString i, .text, false⟩, []⟩

def wideStore : Store where
  config := .inMemory
  address := none
  database := ⟨[wideTable]⟩

def wideRecords : Tables := Tables.empty.append "wide" (List.replicate 300 Record.empty)

theorem width_wideStore : wideStore.database.width "wide" = 1000 := by
  simp [Database.width, Database.table?, wideStore, wideTable, sameName]

theorem entries_wideRecords : wideRecords.entries = [("wide", List.replicate 300 Record.empty)] := rfl

/-- A flush that succeeds under a limit fails under a higher one that lets a statement bind too much. -/
theorem flush_fails_beyond_bound :
    wideStore.database.Distinct ∧
    (∀ e ∈ wideRecords.entries, wideStore.database.width e.1 ≤ 1000) ∧
    (∃ s', Store.writeTables wideRecords (wideStore.withLimit 1000) = .ok 300 s') ∧
    ∃ e s', Store.writeTables wideRecords (wideStore.withLimit 300000) = .error e s' := by
  have hd : wideStore.database.Distinct := by decide +kernel
  have hwide : ∀ e ∈ wideRecords.entries, wideStore.database.width e.1 = 1000 := by
    intro e he
    rw [entries_wideRecords, List.mem_singleton] at he
    rw [he]
    exact width_wideStore
  have hcovers (m : Nat) (hm : 1000 ≤ m) : ∀ e ∈ wideRecords.entries, wideStore.database.width e.1 ≤ m := by
    intro e he
    rw [hwide e he]
    exact hm
  refine ⟨hd, hcovers 1000 (by decide), ?_, ?_⟩
  · have ht : wideStore.database.table? "wide" = some wideTable := by
      simp [Database.table?, wideStore, wideTable, sameName]
    obtain ⟨d, hadd⟩ := Database.addRecords?_of_keyless hd ht (by simp [wideTable]) (by simp [wideTable])
      (List.replicate 300 Record.empty)
    have hall : wideStore.database.addAll? wideRecords.entries = some d := by
      rw [entries_wideRecords, Database.addAll?, List.foldlM_cons, hadd]
      rfl
    have hcount : wideRecords.recordCount = 300 := by
      rw [← Tables.total_lengths, entries_wideRecords, List.map_singleton, List.length_replicate]
      rfl
    have hallows := Database.allows_of_le (hcovers 1000 (by decide)) (by decide)
    obtain ⟨hnone, -⟩ | ⟨d', s', -, hok, -⟩ :=
      Store.write_of_allows (s := wideStore) hd hallows (List.mem_cons_self ..)
    · cases hall.symm.trans hnone
    · exact ⟨s', hcount ▸ hok⟩
  · have hfail := (Store.writeTables_beyond (s := wideStore) hd (hcovers 300000 (by decide)) fun h => ?_)
    · obtain ⟨e, s', he, -⟩ := hfail
      exact ⟨e, s', he⟩
    · rw [entries_wideRecords] at h
      have hbound := (h _ (List.mem_singleton_self _)).2
      simp only [Database.mostBound, width_wideStore, List.length_replicate] at hbound
      exact absurd hbound (by decide)

end Tabulate
