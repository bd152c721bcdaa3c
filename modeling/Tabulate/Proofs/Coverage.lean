import Tabulate.Proofs.Columns
import Tabulate.Proofs.Nests
import Tabulate.Proofs.Sheets

/-! Records fit the layouts of their schema. Layouts are collected from the schema alone and records
from a document, and still every table that is filled has a layout with a column for everything its
records hold. Only the key of a record that has neither a told key nor a record around it has no
column, and it is all that is lost where records are written. -/
namespace Tabulate

open Effects

namespace Csv.Writer

/-- The row of a record has a value at the place of a column. -/
def Shows (w : Writer) (l : TableLayout) (r : Record) (c : String) (v : Option String) : Prop :=
  ∃ i : Nat, l.columns[i]? = some c ∧ (w.fieldsOf l r)[i]? = some (v.getD w.format.null.text)

theorem shows_of_mem (w : Writer) {l : TableLayout} {r : Record} {c : String} {v : Option String}
    (hr : r.get? c = some v) (hc : c ∈ l.columns) : w.Shows l r c v := by
  obtain ⟨i, hi⟩ := List.mem_iff_getElem?.1 hc
  refine ⟨i, hi, ?_⟩
  rw [fieldsOf, List.getElem?_map, hi, Option.map_some, hr]
  rfl

/-- Where every table has a layout, none is refused as unknown. -/
theorem writeTables_ne_unknown (w : Writer) {ls : List TableLayout} {t : Tables}
    (ht : ∀ table ∈ t.keys, (TableLayout.named? ls table).isSome) (fs fs' : FileSystem)
    (table : String) : w.writeTables ls t fs ≠ .error (.unknownTable table) fs' := by
  intro he
  obtain ⟨path, fault, h⟩ := writeTables_fault ht he
  cases h

end Csv.Writer

def Harvested (schema : Schema) (t : Tables) : Prop :=
  ∃ s h₀ h, h₀.tables = .empty ∧ Tabulator.walk s schema h₀ = .ok () h ∧ h.tables = t

/-- What a layout has to have for the records made of a declaration. -/
structure Making.Fits (m : Making) (l : TableLayout) : Prop where
  columns : ∀ c ∈ m.record.keys, c ≠ idColumn → c ∈ l.columns
  key : m.entity.primaryKey.isSome ∨ m.parent.isSome → idColumn ∈ l.columns

theorem Making.fits_of_covers {s : Source} {m : Making} {a b : Harvest} (hm : m.Made s a b)
    {l : TableLayout} (hl : ∀ c ∈ m.declaration.columns, c ∈ l.columns) : m.Fits l where
  columns c hc hid := (m.mem_columns hm hc).elim (absurd · hid) (hl c)
  key hk := hl _ (Declaration.idColumn_mem_columns (by
    simpa [Declaration.hasKeyColumn, Making.declaration] using hk))

theorem Making.Fits.shows {m : Making} {l : TableLayout} (hm : m.Fits l) (w : Csv.Writer) {c : String}
    {v : Option String} (hv : m.record.get? c = some v) :
    w.Shows l m.record c v ∨ c = idColumn ∧ m.entity.primaryKey = none ∧ m.parent = none := by
  by_cases hc : c ∈ l.columns
  · exact .inl (w.shows_of_mem hv hc)
  · have hid : c = idColumn := by
      by_contra hid
      exact hc (hm.columns c ((Dictionary.mem_keys_iff ..).2 ⟨v, hv⟩) hid)
    subst hid
    have hk := mt hm.key hc
    simp only [not_or, Option.not_isSome_iff_eq_none] at hk
    exact .inr ⟨rfl, hk⟩

section Layouts
variable {schema : Schema} {ls : List TableLayout} (hl : schema.layouts = .ok ls)
include hl

theorem covers_declaration {d : Declaration} (hd : d ∈ schema.declarations) :
    TableLayout.Covers ls d.entity.table d.columns :=
  Schema.covers_of_mem_tables hl (schema.tables_eq_map ▸ List.mem_map.2 ⟨d, hd, rfl⟩)

theorem named?_of_harvested {t : Tables} (ht : Harvested schema t) {table : String}
    (hk : table ∈ t.keys) : (TableLayout.named? ls table).isSome := by
  obtain ⟨s, h₀, h, h₀t, hw, rfl⟩ := ht
  obtain ⟨ms, htables, hms⟩ := walk_eq_makings hw
  rw [htables, h₀t, Tables.empty_merge] at hk
  obtain ⟨m, hm, rfl⟩ := Making.mem_keys_tables hk
  obtain ⟨l, hnamed, -⟩ := covers_declaration hl (hms m hm).1
  exact Option.isSome_iff_exists.2 ⟨l, hnamed⟩

theorem named?_of_mem_merge {ts : List Tables} (hts : ∀ t ∈ ts, Harvested schema t) {t : Tables}
    (ht : ∀ table ∈ t.keys, (TableLayout.named? ls table).isSome) :
    ∀ table ∈ (ts.foldl Tables.merge t).keys, (TableLayout.named? ls table).isSome := by
  induction ts generalizing t with
  | nil => exact ht
  | cons u ts ih =>
    refine ih (fun t ht => hts t (List.mem_cons_of_mem u ht)) fun table hk => ?_
    rcases (Tables.mem_keys_merge ..).1 hk with hk | hk
    · exact ht table hk
    · exact named?_of_harvested hl (hts u (by simp)) hk

/-- Every table of a walk has a layout with a column for whatever its records hold, their own key
aside. The tables are those of makings, each of a declaration of the schema; a key that is told or that
has a record around it has its column too, and any other key is all that the rows do not show. The
tables of any number of walks, merged, are never refused as unknown. -/
theorem records_fit_layouts :
    (∀ (s : Source) (h₀ h : Harvest), h₀.tables = .empty →
      Tabulator.walk s schema h₀ = .ok () h →
      (∀ table rs, h.tables.get? table = some rs → ∃ l, TableLayout.named? ls table = some l ∧
        ∀ r ∈ rs, ∀ c ∈ r.keys, c ≠ idColumn → c ∈ l.columns) ∧
      ∃ ms : List Making, h.tables = Making.tables ms ∧ ∀ m ∈ ms,
        m.declaration ∈ schema.declarations ∧ (∃ a b, m.Made s a b) ∧
        ∃ l, TableLayout.named? ls m.entity.table = some l ∧ m.Fits l ∧
          ∀ (w : Csv.Writer) (c : String) (v : Option String), m.record.get? c = some v →
            w.Shows l m.record c v ∨
              c = idColumn ∧ m.entity.primaryKey = none ∧ m.parent = none) ∧
    (∀ ts : List Tables, (∀ t ∈ ts, Harvested schema t) →
      ∀ (w : Csv.Writer) (fs fs' : FileSystem) (table : String),
        w.writeTables ls (ts.foldl Tables.merge .empty) fs ≠ .error (.unknownTable table) fs') := by
  constructor
  · intro s h₀ h h₀t hw
    obtain ⟨ms, htables, hms⟩ := walk_eq_makings hw
    rw [h₀t, Tables.empty_merge] at htables
    have hfit (m : Making) (hm : m ∈ ms) :
        ∃ l, TableLayout.named? ls m.entity.table = some l ∧ m.Fits l := by
      obtain ⟨hd, a, b, hmade⟩ := hms m hm
      obtain ⟨l, hnamed, hcols⟩ := covers_declaration hl hd
      exact ⟨l, hnamed, Making.fits_of_covers hmade hcols⟩
    refine ⟨fun table rs hrs => ?_, ms, htables, fun m hm => ?_⟩
    · obtain ⟨hne, rfl⟩ := Making.eq_rows_of_get?_tables (htables ▸ hrs)
      obtain ⟨l, hnamed⟩ := Option.isSome_iff_exists.1 (named?_of_harvested hl
        ⟨s, h₀, h, h₀t, hw, rfl⟩ ((Dictionary.mem_keys_iff ..).2 ⟨_, hrs⟩))
      refine ⟨l, hnamed, fun r hr c hc hid => ?_⟩
      obtain ⟨m, hm, rfl⟩ := List.mem_map.1 hr
      obtain ⟨hm, ht⟩ := List.mem_filter.1 hm
      obtain ⟨l', hnamed', hfits⟩ := hfit m hm
      rw [decide_eq_true_eq] at ht
      obtain rfl : l = l' := Option.some.inj (hnamed.symm.trans (ht ▸ hnamed'))
      exact hfits.columns c hc hid
    · obtain ⟨l, hnamed, hfits⟩ := hfit m hm
      exact ⟨(hms m hm).1, (hms m hm).2, l, hnamed, hfits, fun w c v hv => hfits.shows w hv⟩
  · intro ts hts w fs fs' table
    refine w.writeTables_ne_unknown (named?_of_mem_merge hl hts ?_) fs fs' table
    simp [Tables.empty]

end Layouts

def albumSchema : Schema where
  paths := [("album", .entity ⟨"album", none, some "file"⟩
    [("track", .entity ⟨"track", none, none⟩ [(".", .column "title")])])]

def albumLayouts : List TableLayout :=
  [⟨"track", ["id", "album_id", "title"], some "id"⟩, ⟨"album", ["file"], none⟩]

def albumSource : Source where
  document := ⟨[.element ⟨none, "album"⟩ [] [] [.element ⟨none, "track"⟩ [] [] [.text "Road"]]]⟩
  namespaces := .empty
  filename := none

theorem records_fit_layouts_album : albumSchema.layouts = .ok albumLayouts ∧
    ∃ h, Tabulator.walk albumSource albumSchema {} = .ok () h ∧ h.tables.keys = ["album", "track"] ∧
      (∀ table rs, h.tables.get? table = some rs →
        ∃ l, TableLayout.named? albumLayouts table = some l ∧
          ∀ r ∈ rs, ∀ c ∈ r.keys, c ≠ idColumn → c ∈ l.columns) ∧
      ∀ (w : Csv.Writer) (fs fs' : FileSystem) (table : String),
        w.writeTables albumLayouts h.tables fs ≠ .error (.unknownTable table) fs' := by
  have hl : albumSchema.layouts = .ok albumLayouts := by rfl
  obtain ⟨h, hw, hkeys⟩ := exists_of_succeeds (p := fun h => h.tables.keys = ["album", "track"])
    (r := Tabulator.walk albumSource albumSchema {}) (by decide +kernel)
  obtain ⟨hwalk, hmerge⟩ := records_fit_layouts hl
  refine ⟨hl, h, hw, by simpa using hkeys, (hwalk albumSource {} h rfl hw).1, fun w fs fs' table => ?_⟩
  have hrefuse := hmerge [h.tables] (by simpa using ⟨albumSource, {}, h, rfl, hw, rfl⟩) w fs fs' table
  simpa using hrefuse

end Tabulate
