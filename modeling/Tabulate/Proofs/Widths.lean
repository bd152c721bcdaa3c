import Tabulate.Proofs.Fillings
import Tabulate.Proofs.Fitting

/-! Widths of prepared tables. A table that a preparation makes is within the limit, but one that was there may
have been too wide already, or the layouts may make it so. Then the preparation succeeds all the same, and
records are refused afterwards. -/
namespace Tabulate

open Effects

namespace Database

/-- Whether a table, if it is there, has room for the columns that layouts add to it. -/
def HasRoom (d : Database) (ls : List TableLayout) (m : Nat) (table : String) : Prop :=
  ∀ t ∈ d.tables, t.name = table →
    (TableLayout.addColumns t.columnNames (TableLayout.wanted ls table)).length ≤ m

instance (d : Database) (ls : List TableLayout) (m : Nat) (table : String) : Decidable (d.HasRoom ls m table) :=
  inferInstanceAs (Decidable (∀ t ∈ d.tables, _))

variable {d : Database} {ls : List TableLayout}

theorem width_of_mem (hd : d.Distinct) {t : Table} (ht : t ∈ d.tables) : d.width t.name = t.columns.length := by
  rw [width, hd.table?_of_mem ht]
  rfl

theorem width_congr {table name : String} (h : sameName table name = true) : d.width table = d.width name := by
  have hfold : foldCase table = foldCase name := of_decide_eq_true h
  have hsame : (fun t : Table => sameName t.name table) = fun t => sameName t.name name := by
    funext t
    rw [sameName, sameName, hfold]
  rw [width, width, table?, table?, hsame]

/-- A fitted table has its own columns and those that it lacked. -/
theorem width_fitted_of_mem (hd : (d.fitted ls).Distinct) {t : Table} (ht : t ∈ d.tables) :
    (d.fitted ls).width t.name =
      (TableLayout.addColumns t.columnNames (TableLayout.wanted ls t.name)).length := by
  have hwidth := width_of_mem hd (fitted_mem ht ls)
  rwa [Table.name_fitted, ← List.length_map Column.name, ← Table.columnNames, Table.columnNames_fitted] at hwidth

theorem width_fitted_of_unmet (hd : (d.fitted ls).Distinct) {l : TableLayout} (hl : l ∈ d.unmet ls) :
    (d.fitted ls).width l.name = l.columns.length := by
  have hwidth := width_of_mem hd (tableOf_mem hl)
  rwa [← List.length_map Column.name, ← Table.columnNames, (Store.columnNames_tableOf_perm l).length_eq] at hwidth

end Database

namespace Store
variable {s s' : Store} {ls : List TableLayout} {l : TableLayout} {table : String}

/-- Whatever calls come before, none is refused because a table is too wide for a statement. -/
def Fillable (s : Store) (table : String) : Prop :=
  ∀ (before : List Filling) (f : Filling) (name : String) (count limit : Nat) (s' : Store),
    sameName name table = true → f.run (s.after before) ≠ .error (.tooWide name count limit) s'

theorem fillable_iff (hd : s.database.Distinct) :
    s.Fillable table ↔ s.database.width table ≤ s.config.maxVars := by
  constructor
  · intro h
    by_contra hwide
    exact h [] (.insert table [.empty]) table _ _ s (by simp [sameName])
      (insertAll_tooWide (Nat.lt_of_not_le hwide) (List.cons_ne_nil _ _))
  · intro h before f name count limit s' hname hrun
    obtain ⟨es, htakes⟩ := after_takes hd before
    have hwide := Filling.width_of_tooWide (htakes.database.distinct hd) hrun
    rw [htakes.config, htakes.database.width, Database.width_congr hname] at hwide
    exact absurd h (Nat.not_le_of_lt hwide)

/-- What is new is within the limit of the store, so a layout is within it if the table that was there had room. -/
theorem width_le_iff_of_prepare (hd : s.database.Distinct) (h : prepare ls s = .ok () s') (hl : l ∈ ls) {m : Nat}
    (hm : s.config.maxColumns ≤ m) : s'.database.width l.name ≤ m ↔ s.database.HasRoom ls m l.name := by
  have hdistinct := ((prepare_widens h).2.2 hd).1
  have hunmet := unmet_of_prepare h
  obtain rfl := prepare_eq hd h
  show (s.database.fitted ls).width l.name ≤ m ↔ _
  by_cases hname : l.name ∈ s.database.tables.map Table.name
  · obtain ⟨t, ht, hname⟩ := List.mem_map.1 hname
    rw [← hname, Database.width_fitted_of_mem hdistinct ht]
    constructor
    · intro hwidth u hu hsame
      rwa [hd.eq_of_sameName hu ht (by simp [sameName, hsame])]
    · intro hroom
      exact hroom t ht rfl
  · have hmem := Database.mem_unmet.2 ⟨hl, hname⟩
    rw [Database.width_fitted_of_unmet hdistinct hmem]
    refine iff_of_true (Nat.le_trans (hunmet l hmem).2 hm) fun t ht hsame => ?_
    exact absurd (hsame ▸ List.mem_map_of_mem ht) hname

/-- After a preparation that succeeds, the table of a layout is within the limit exactly if it was not there or had
room for all that the layouts add to it, and so it is with the limit that later calls ask for. What is within
the limit is never refused as too wide. -/
theorem prepare_within_limit_iff (hd : s.database.Distinct) (h : prepare ls s = .ok () s') : ∀ l ∈ ls,
    (s'.database.width l.name ≤ s.config.maxColumns ↔ s.database.HasRoom ls s.config.maxColumns l.name) ∧
    (s'.Fillable l.name ↔ s.database.HasRoom ls s.config.maxVars l.name) ∧
    (s'.database.width l.name ≤ s.config.maxColumns → s'.Fillable l.name) := by
  intro l hl
  have hle : s.config.maxColumns ≤ s.config.maxVars := Nat.min_le_left ..
  obtain ⟨hconfig, -, hwidens⟩ := prepare_widens h
  have hfillable : s'.Fillable l.name ↔ s'.database.width l.name ≤ s.config.maxVars := by
    rw [← hconfig]
    exact fillable_iff (hwidens hd).1
  refine ⟨width_le_iff_of_prepare hd h hl (Nat.le_refl _), ?_, fun hwidth => ?_⟩
  · rw [hfillable]
    exact width_le_iff_of_prepare hd h hl hle
  · exact hfillable.2 (Nat.le_trans hwidth hle)

end Store

theorem prepare_within_limit_shelf : shelfStore.database.Distinct ∧ ∃ s',
    Store.prepare shelfLayouts shelfStore = .ok () s' ∧ ∀ l ∈ shelfLayouts,
      s'.database.width l.name ≤ shelfStore.config.maxColumns ∧ s'.Fillable l.name := by
  have hd : shelfStore.database.Distinct := by decide +kernel
  have hsucceeds : succeeds (fun _ => true) (Store.prepare shelfLayouts shelfStore) = true := by decide +kernel
  obtain ⟨s', hprepare, -⟩ := exists_of_succeeds hsucceeds
  have hroom : ∀ l ∈ shelfLayouts, shelfStore.database.HasRoom shelfLayouts shelfStore.config.maxColumns l.name := by
    decide +kernel
  refine ⟨hd, s', hprepare, fun l hl => ?_⟩
  obtain ⟨hwidth, -, hfillable⟩ := Store.prepare_within_limit_iff hd hprepare l hl
  exact ⟨hwidth.2 (hroom l hl), hfillable (hwidth.2 (hroom l hl))⟩

def narrowStore : Store where
  config := { StoreConfig.inMemory with maxVars := 2 }
  address := none
  database := ⟨[⟨"t", [⟨"a", .text, false⟩, ⟨"b", .text, false⟩], []⟩]⟩

/-- A table is prepared beyond the limit, and then takes in no record. -/
theorem prepared_beyond_limit : ∃ s', Store.prepare [⟨"t", ["b", "c"], none⟩] narrowStore = .ok () s' ∧
    s'.config = narrowStore.config ∧ narrowStore.config.maxColumns = 2 ∧ s'.database.width "t" = 3 ∧
    ∀ r, Store.insertAll "t" [r] s' = .error (.tooWide "t" 3 2) s' := by
  have hsucceeds : succeeds (fun s' => decide (s'.config = narrowStore.config ∧ s'.database.width "t" = 3))
      (Store.prepare [⟨"t", ["b", "c"], none⟩] narrowStore) = true := by
    decide +kernel
  obtain ⟨s', hprepare, hs⟩ := exists_of_succeeds hsucceeds
  obtain ⟨hconfig, hwidth⟩ := of_decide_eq_true hs
  refine ⟨s', hprepare, hconfig, by decide, hwidth, fun r => ?_⟩
  have hvars : s'.config.maxVars = 2 := by
    rw [hconfig]
    rfl
  have hwide : s'.config.maxVars < s'.database.width "t" := by
    rw [hvars, hwidth]
    decide
  have hrefused := Store.insertAll_tooWide hwide (List.cons_ne_nil r [])
  rwa [hvars, hwidth] at hrefused

end Tabulate
