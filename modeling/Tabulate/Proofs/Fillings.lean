import Tabulate.Proofs.Limits

/-! Calls that put records into a store, one after the other. Whatever they come to, tables have only taken in
records, and calls that all succeed add all their records in order. -/
namespace Tabulate

open Effects

namespace Store
variable {s s' s'' : Store} {table : String} {rs : List Record} {e : StoreError} {n : Nat}

def Adds (s : Store) (es : List (String × List Record)) (s' : Store) : Prop :=
  ∃ d, s.database.addAll? es = some d ∧ s' = { s with database := d }

theorem Adds.refl (s : Store) : s.Adds [] s := ⟨s.database, rfl, rfl⟩

theorem Adds.trans {es more : List (String × List Record)} (h : s.Adds es s') (h' : s'.Adds more s'') :
    s.Adds (es ++ more) s'' := by
  obtain ⟨d, hd, rfl⟩ := h
  obtain ⟨d', hd', rfl⟩ := h'
  exact ⟨d', by rw [Database.addAll?_append, hd]; exact hd', rfl⟩

theorem Adds.takes {es : List (String × List Record)} (hd : s.database.Distinct) (h : s.Adds es s') :
    s.Takes (Database.rowsNamed es) s' := by
  obtain ⟨d, hadds, rfl⟩ := h
  exact ⟨rfl, rfl, Database.addAll?_takes hd hadds⟩

theorem adds_of_addRecords? {d : Database} (h : s.database.addRecords? table rs = some d) :
    s.Adds [(table, rs)] { s with database := d } := by
  refine ⟨d, ?_, rfl⟩
  rw [Database.addAll?, List.foldlM_cons, h]
  rfl

/-- What every call of a pass adds, the pass adds. -/
theorem mapM_adds {α : Type} {f : α → Storing Nat} {g : α → List (String × List Record)} {xs : List α}
    {ns : List Nat} (step : ∀ x s n s', s.database.Distinct → f x s = .ok n s' → s.Adds (g x) s')
    (hd : s.database.Distinct) (h : xs.mapM f s = .ok ns s') : s.Adds (xs.flatMap g) s' := by
  induction xs generalizing s ns with
  | nil =>
    cases h
    exact .refl _
  | cons x xs ih =>
    rw [List.mapM_cons] at h
    obtain ⟨n, s₁, hx, h⟩ := bind_eq_ok.1 h
    obtain ⟨more, s₂, hxs, hp⟩ := bind_eq_ok.1 h
    cases hp
    have hfirst := step x s n s₁ hd hx
    exact hfirst.trans (ih ((hfirst.takes hd).database.distinct hd) hxs)

/-! ### Insertions -/

/-- Not even one record is taken in by a table that is too wide for a statement. -/
theorem insertAll_tooWide (hw : s.config.maxVars < s.database.width table) (hrs : rs ≠ []) :
    insertAll table rs s = .error (.tooWide table (s.database.width table) s.config.maxVars) s := by
  have hcolumns : s.database.width table = (s.columns table).length := rfl
  rw [hcolumns] at hw ⊢
  obtain ⟨hnil, -⟩ | ⟨-, hc, -⟩ | ⟨-, -, hrun⟩ | ⟨-, -, hsize, -⟩ := s.keepsLimit table rs
  · exact absurd hnil hrs
  · rw [hc] at hw
    cases hw
  · exact hrun
  · rw [Nat.div_eq_of_lt hw] at hsize
    cases hsize

theorem insertAll_adds (hd : s.database.Distinct) (h : insertAll table rs s = .ok n s') :
    s.Adds [(table, rs)] s' := by
  by_cases hw : s.database.width table ≤ s.config.maxVars
  · obtain ⟨-, -, d, hadds, rfl⟩ := (insertAll_eq_ok hd hw).1 h
    exact adds_of_addRecords? hadds
  · cases rs with
    | nil =>
      cases h
      exact adds_of_addRecords? rfl
    | cons r rs => cases (insertAll_tooWide (Nat.lt_of_not_le hw) (List.cons_ne_nil r rs)).symm.trans h

/-- An insertion is refused because of its table before it begins, or a statement fails, and then those
before it have added their records. -/
theorem insertAll_error (hd : s.database.Distinct) (h : insertAll table rs s = .error e s') :
    (s' = s ∧ (e = .noTable table ∨ s.config.maxVars < s.database.width table ∧
      e = .tooWide table (s.database.width table) s.config.maxVars)) ∨
    ∃ text done, e = .statement text ∧ done <+: rs ∧ s.Adds [(table, done)] s' := by
  obtain ⟨-, hrun⟩ | ⟨-, -, hrun⟩ | ⟨-, hm, hrun⟩ | ⟨-, hpos, hsize, hrun, -⟩ := s.keepsLimit table rs
  · cases hrun.symm.trans h
  · cases hrun.symm.trans h
    exact .inl ⟨rfl, .inl rfl⟩
  · cases hrun.symm.trans h
    exact .inl ⟨rfl, .inr ⟨hm, rfl⟩⟩
  · right
    rw [hrun] at h
    obtain h | ⟨_, _, -, h⟩ := bind_eq_error.1 h
    · obtain ⟨before, i, behind, s₁, his, hbefore, hi⟩ := forM_eq_error.1 h
      obtain ⟨rfl, rfl⟩ := execute_eq_error hi
      obtain ⟨batches, more, hchunks, rfl, -⟩ := List.map_eq_append_iff.1 his
      obtain ⟨d, hfold, rfl⟩ := forM_perform_eq_ok.1 hbefore
      rw [List.foldlM_map] at hfold
      have hbatches := Database.foldlM_insert?_batches batches hd (table?_of_columns hpos) (List.length_pos_iff.1 hpos)
      have hall := hbatches.symm.trans hfold
      split at hall
      · refine ⟨_, batches.flatten, rfl, ?_, adds_of_addRecords? hall⟩
        have hrs := flatten_chunks hsize rs
        rw [List.length_map] at hchunks
        rw [hchunks, List.flatten_append] at hrs
        exact hrs ▸ List.prefix_append ..
      · cases hall
    · cases h

/-- Entries that are all inserted add their records one after the other. -/
theorem mapM_insertAll_adds {es : List (String × List Record)} {ns : List Nat} (hd : s.database.Distinct)
    (h : (es.mapM fun e => insertAll e.1 e.2) s = .ok ns s') : s.Adds es s' := by
  have hall := mapM_adds (g := fun e => [e]) (fun e s n s' => insertAll_adds) hd h
  rwa [List.flatMap_singleton'] at hall

end Store

/-! ### Calls -/

inductive Filling where
  | insert (table : String) (rs : List Record)
  | flush (t : Tables)

namespace Filling
variable {s s' : Store} {f : Filling} {n : Nat}

def entries : Filling → List (String × List Record)
  | insert table rs => [(table, rs)]
  | flush t => t.entries

def run : Filling → Storing Nat
  | insert table rs => Store.insertAll table rs
  | flush t => Store.writeTables t

/-- A call that succeeds adds the records of its entries. -/
theorem run_adds (hd : s.database.Distinct) (h : f.run s = .ok n s') : s.Adds f.entries s' := by
  cases f with
  | insert table rs => exact Store.insertAll_adds hd h
  | flush t =>
    simp only [run, Store.writeTables] at h
    split at h
    · next counts written hall =>
      cases h
      exact Store.mapM_insertAll_adds hd hall
    · cases h

/-- Whatever a call comes to, the tables of the store have only taken in records. -/
theorem left_takes (hd : s.database.Distinct) (f : Filling) : ∃ es : List (String × List Record),
    s.Takes (Database.rowsNamed es) (left (f.run s)) := by
  cases hrun : f.run s with
  | ok n s' => exact ⟨f.entries, (run_adds hd hrun).takes hd⟩
  | error e s' =>
    cases f with
    | insert table rs =>
      obtain ⟨rfl, -⟩ | ⟨text, done, -, -, hadds⟩ := Store.insertAll_error hd hrun
      · exact ⟨[], .refl _⟩
      · exact ⟨[(table, done)], hadds.takes hd⟩
    | flush t =>
      rw [Store.writeTables_error hrun]
      exact ⟨[], rfl, rfl, .refl _⟩

/-- A call that finds a table too wide has met one with more columns than there are values in a statement. -/
theorem width_of_tooWide (hd : s.database.Distinct) {table : String} {count limit : Nat}
    (h : f.run s = .error (.tooWide table count limit) s') : s.config.maxVars < s.database.width table := by
  have hinsert {s s' : Store} {name : String} {rs : List Record} (hd : s.database.Distinct)
      (h : Store.insertAll name rs s = .error (.tooWide table count limit) s') :
      s.config.maxVars < s.database.width table := by
    obtain ⟨-, he | ⟨hwide, he⟩⟩ | ⟨text, done, he, -⟩ := Store.insertAll_error hd h
    · cases he
    · cases he
      exact hwide
    · cases he
  cases f with
  | insert name rs => exact hinsert hd h
  | flush t =>
    simp only [run, Store.writeTables] at h
    split at h
    · cases h
    · next e written hall =>
      cases h
      obtain ⟨before, e, behind, ns, s₁, -, hbefore, he⟩ := mapM_eq_error hall
      -- the entries before it have not made the table any wider
      have htakes := (Store.mapM_insertAll_adds hd hbefore).takes hd
      have hwide := hinsert (htakes.database.distinct hd) he
      rwa [htakes.config, htakes.database.width] at hwide

end Filling

namespace Store
variable {s s' : Store} {fs : List Filling}

def after (fs : List Filling) (s : Store) : Store := fs.foldl (fun s f => left (f.run s)) s

theorem after_takes (hd : s.database.Distinct) (fs : List Filling) : ∃ es : List (String × List Record),
    s.Takes (Database.rowsNamed es) (after fs s) := by
  induction fs generalizing s with
  | nil => exact ⟨[], .refl s⟩
  | cons f fs ih =>
    obtain ⟨es, hfirst⟩ := f.left_takes hd
    obtain ⟨more, hrest⟩ := ih (hfirst.database.distinct hd)
    refine ⟨es ++ more, ?_⟩
    have hrows : Database.rowsNamed (es ++ more) =
        fun k => Database.rowsNamed es k ++ Database.rowsNamed more k :=
      funext fun k => List.flatMap_append
    exact hrows ▸ hfirst.trans hrest

/-- Calls that all succeed add the records of all their entries in order. -/
theorem mapM_run_adds {ns : List Nat} (hd : s.database.Distinct) (h : fs.mapM Filling.run s = .ok ns s') :
    s.Adds (fs.flatMap Filling.entries) s' :=
  mapM_adds (fun _ _ _ _ => Filling.run_adds) hd h

end Store

end Tabulate
