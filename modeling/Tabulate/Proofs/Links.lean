import Tabulate.Database.Store
import Tabulate.Proofs.Coverage
import Tabulate.Proofs.References

/-! Links between rows. A record inside another holds the other's key, but a table keeps no more of its
records than its layout has columns for. The column that links lead to is there if the records of the
table have a key that is told or stand inside others, and then every link leads to a row. -/
namespace Tabulate

open Effects
open Nest (begunIn doneIn)

namespace TableLayout
variable {l : TableLayout} {r : Record}

def project (l : TableLayout) (r : Record) : List (Option String) := l.columns.map (Store.valueOf r)

def Holds (l : TableLayout) (r : Record) (c text : String) : Prop :=
  ∃ i : Nat, l.columns[i]? = some c ∧ (l.project r)[i]? = some (some text)

theorem holds_iff {c text : String} :
    l.Holds r c text ↔ c ∈ l.columns ∧ r.get? c = some (some text) := by
  have hvalue : Store.valueOf r c = some text ↔ r.get? c = some (some text) := by
    rw [Store.valueOf]
    cases r.get? c <;> simp
  rw [Holds, ← hvalue, List.mem_iff_getElem?]
  constructor
  · rintro ⟨i, hc, hv⟩
    rw [project, List.getElem?_map, hc] at hv
    exact ⟨⟨i, hc⟩, Option.some.inj hv⟩
  · rintro ⟨⟨i, hc⟩, hv⟩
    refine ⟨i, hc, ?_⟩
    rw [project, List.getElem?_map, hc, Option.map_some, hv]

end TableLayout

theorem parentColumn_inj {table outer : String} : parentColumn table = parentColumn outer ↔ table = outer :=
  String.append_left_inj "_id"

theorem Declaration.idColumn_mem_columns_iff {d : Declaration} (h : idColumn ∉ d.filledColumns) :
    idColumn ∈ d.columns ↔ d.hasKeyColumn = true := by
  refine ⟨fun hid => ?_, idColumn_mem_columns⟩
  by_contra hkey
  rw [filledColumns, List.mem_append, not_or] at h
  rw [hasKeyColumn] at hkey
  simp only [columns, Entity.columns, List.mem_append, if_neg hkey, h.1, h.2, or_false, false_or,
    List.not_mem_nil, Option.mem_toList, Option.map_eq_some_iff] at hid
  obtain ⟨table, -, hid⟩ := hid
  exact parentColumn_ne_idColumn table hid

namespace Schema

/-- No column for keys is filled with anything else, of whatever entity. -/
def KeepsLinks (s : Schema) : Prop :=
  ∀ d ∈ s.declarations, ∀ e ∈ s.declarations, ∀ c ∈ e.keyColumns, c ∉ d.filledColumns

instance (s : Schema) : Decidable s.KeepsLinks := by
  unfold KeepsLinks
  infer_instance

def IsKeyed (s : Schema) (table : String) : Prop :=
  ∃ d ∈ s.declarations, d.entity.table = table ∧ d.hasKeyColumn = true

instance (s : Schema) (table : String) : Decidable (s.IsKeyed table) := by
  unfold IsKeyed
  infer_instance

variable {schema : Schema}

theorem KeepsLinks.keepsKeys (h : schema.KeepsLinks) {d : Declaration} (hd : d ∈ schema.declarations) :
    d.KeepsKeys :=
  h d hd d hd

theorem KeepsLinks.idColumn_not_mem (h : schema.KeepsLinks) {d : Declaration} (hd : d ∈ schema.declarations) :
    idColumn ∉ d.filledColumns :=
  h d hd d hd idColumn (by simp [Declaration.keyColumns])

theorem KeepsLinks.parentColumn_not_mem (h : schema.KeepsLinks) {d e : Declaration}
    (hd : d ∈ schema.declarations) (he : e ∈ schema.declarations) {outer : String}
    (houter : e.enclosing = some outer) : parentColumn outer ∉ d.filledColumns :=
  h d hd e he _ (by simp [Declaration.keyColumns, houter])

/-- A layout has the column for keys exactly if its table is keyed. -/
theorem KeepsLinks.idColumn_mem_iff (h : schema.KeepsLinks) {ls : List TableLayout} (hl : schema.layouts = .ok ls)
    {l : TableLayout} (hmem : l ∈ ls) : idColumn ∈ l.columns ↔ schema.IsKeyed l.name := by
  rw [mem_columns_iff hl hmem]
  constructor
  · rintro ⟨d, hd, ht, hid⟩
    exact ⟨d, hd, ht, (Declaration.idColumn_mem_columns_iff (h.idColumn_not_mem hd)).1 hid⟩
  · rintro ⟨d, hd, ht, hkey⟩
    exact ⟨d, hd, ht, Declaration.idColumn_mem_columns hkey⟩

end Schema

namespace Making
variable {s : Source} {m : Making} {a b : Harvest}

/-- A record that holds the key of a record of another table was made inside that record. -/
theorem parent_of_get? (hm : m.Made s a b) {outer key : String}
    (hc : parentColumn outer ∉ m.declaration.filledColumns)
    (hkey : m.record.get? (parentColumn outer) = some (some key)) : m.parent = some ⟨outer, key⟩ := by
  rw [get?_of_made hm hc] at hkey
  have hfile : m.entity.filenameColumn ≠ some (parentColumn outer) := filename_ne_of_not_mem hc
  have hheld : parentColumn outer ∈ (s.newRecord m.entity m.parent m.key).keys :=
    (Dictionary.mem_keys_iff ..).2 ⟨_, hkey⟩
  rcases mem_keys_newRecord hheld with hid | hparent | hname
  · exact absurd hid (parentColumn_ne_idColumn outer)
  · cases hp : m.parent with
    | none => simp [hp] at hparent
    | some p =>
      have houter : outer = p.table := parentColumn_inj.1 (by simpa [hp] using hparent)
      subst houter
      rw [hp, Source.get?_newRecord_parent hfile] at hkey
      cases hkey
      rfl
  · exact absurd (by simpa using hname) hfile

end Making

/-- Where nothing else fills the columns for keys, a row that holds a key of an enclosing table was made
inside a record of that table with that key, from the same document. The enclosing table keeps the keys
of its records if it is keyed, and then one of its rows has that key. -/
theorem links_resolve {schema : Schema} (hlinks : schema.KeepsLinks) {ls : List TableLayout}
    (hl : schema.layouts = .ok ls) {s : Source} {counters : KeyCounters} {h : Harvest}
    (hw : Tabulator.walk s schema { counters } = .ok () h) :
    ∀ table rs, h.tables.get? table = some rs → ∃ l, TableLayout.named? ls table = some l ∧
      ∀ r ∈ rs, ∀ d ∈ schema.declarations, ∀ outer, d.enclosing = some outer →
        ∀ key, l.Holds r (parentColumn outer) key →
          ∃ lo ros, TableLayout.named? ls outer = some lo ∧ h.tables.get? outer = some ros ∧
            (idColumn ∈ lo.columns ↔ schema.IsKeyed outer) ∧
            ∃ ro ∈ ros, ro.get? idColumn = some (some key) ∧
              (schema.IsKeyed outer → lo.Holds ro idColumn key) := by
  obtain ⟨ns, hns⟩ := watch_eq_ok.2 hw
  obtain ⟨htables, hmade⟩ := watch_makings hns
  rw [Tables.empty_merge] at htables
  have hbegun (m : Making) : m ∈ doneIn ns ↔ m ∈ begunIn ns := (Nest.doneIn_perm_begunIn ns).mem_iff
  intro table rs hrs
  obtain ⟨l, hnamed⟩ := Option.isSome_iff_exists.1 (named?_of_harvested hl
    ⟨s, { counters }, h, rfl, hw, rfl⟩ ((Dictionary.mem_keys_iff ..).2 ⟨rs, hrs⟩))
  refine ⟨l, hnamed, fun r hr d hd outer houter key hkey => ?_⟩
  rw [htables] at hrs ⊢
  obtain ⟨-, rfl⟩ := Making.eq_rows_of_get?_tables hrs
  obtain ⟨m, hm, rfl⟩ := List.mem_map.1 hr
  have hm : m ∈ doneIn ns := (List.mem_filter.1 hm).1
  obtain ⟨hmd, a, b, hab⟩ := hmade m hm
  have hparent : m.parent = some ⟨outer, key⟩ :=
    Making.parent_of_get? hab (hlinks.parentColumn_not_mem hmd hd houter) (TableLayout.holds_iff.1 hkey).2
  obtain ⟨t, ht, rfl⟩ | ⟨o, ho, hom⟩ := begun_enclosed hns m ((hbegun m).1 hm)
  · rw [(outermost_watchSchema hns t ht).1] at hparent
    cases hparent
  rw [hom.parent] at hparent
  cases hparent
  obtain ⟨hod, a, b, hab⟩ := hmade o ((hbegun o).2 ho)
  obtain ⟨ros, hros, hor⟩ := Making.record_mem_tables ((hbegun o).2 ho)
  obtain ⟨lo, hlo, -⟩ := covers_declaration hl hod
  obtain ⟨hmem, hname⟩ := TableLayout.named?_eq_some hlo
  have hid : o.record.get? idColumn = some (some o.key) := Making.get?_id (hlinks.keepsKeys hod) hab
  have hkeyed : idColumn ∈ lo.columns ↔ schema.IsKeyed o.entity.table := by
    rw [hlinks.idColumn_mem_iff hl hmem, hname]
    rfl
  exact ⟨lo, ros, hlo, hros, hkeyed, o.record, hor, hid,
    fun hk => TableLayout.holds_iff.2 ⟨hkeyed.2 hk, hid⟩⟩

theorem links_resolve_tracks : trackedAlbums.KeepsLinks ∧ ∃ ls, trackedAlbums.layouts = .ok ls ∧
    ∃ h r l, Tabulator.walk trackedSource trackedAlbums { counters := .empty } = .ok () h ∧
      h.tables.get? "track" = some [r] ∧ r.get? "album_id" = some (some "Pink Moon") ∧
      TableLayout.named? ls "album" = some l ∧ l.columns = ["id", "last"] ∧
      ∃ ros, h.tables.get? "album" = some ros ∧ ∃ ro ∈ ros, l.Holds ro idColumn "Pink Moon" := by
  have hlinks : trackedAlbums.KeepsLinks := by decide
  have hl : trackedAlbums.layouts = .ok [⟨"track", ["id", "album_id", "file", "title"], some "id"⟩,
      ⟨"album", ["id", "last"], some "id"⟩] := by decide
  obtain ⟨h, hw, htrack⟩ := exists_of_succeeds
    (p := fun h => (h.tables.get? "track").map (·.map (·.get? "album_id")) = some [some (some "Pink Moon")])
    (r := Tabulator.walk trackedSource trackedAlbums { counters := .empty }) (by decide +kernel)
  simp only [decide_eq_true_eq, Option.map_eq_some_iff, List.map_eq_singleton_iff] at htrack
  obtain ⟨_, htrack, r, rfl, hkey⟩ := htrack
  obtain ⟨l, hnamed, hlink⟩ := links_resolve hlinks hl hw "track" [r] htrack
  cases hnamed
  have hdeclared : ⟨⟨"track", none, some "file"⟩, [(".", .column "title")], some "album"⟩ ∈
      trackedAlbums.declarations :=
    .head _
  obtain ⟨lo, ros, hlo, hros, -, ro, hro, -, hholds⟩ := hlink r (by simp) _ hdeclared "album" rfl "Pink Moon"
    (TableLayout.holds_iff.2 ⟨by decide, hkey⟩)
  cases hlo
  exact ⟨hlinks, _, hl, h, r, _, hw, htrack, hkey, rfl, rfl, ros, hros, ro, hro, hholds (by decide)⟩

/-- Albums without keys keep none, so that a track leads to no row. -/
theorem links_to_unkeyed_dangle : albumSchema.KeepsLinks ∧ albumSchema.layouts = .ok albumLayouts ∧
    ∃ h r, Tabulator.walk albumSource albumSchema {} = .ok () h ∧ h.tables.get? "track" = some [r] ∧
      TableLayout.Holds ⟨"track", ["id", "album_id", "title"], some "id"⟩ r "album_id" "None_0" ∧
      ∃ lo, TableLayout.named? albumLayouts "album" = some lo ∧ idColumn ∉ lo.columns := by
  obtain ⟨h, hw, htrack⟩ := exists_of_succeeds
    (p := fun h => (h.tables.get? "track").map (·.map (·.get? "album_id")) = some [some (some "None_0")])
    (r := Tabulator.walk albumSource albumSchema {}) (by decide +kernel)
  simp only [decide_eq_true_eq, Option.map_eq_some_iff, List.map_eq_singleton_iff] at htrack
  obtain ⟨_, htrack, r, rfl, hkey⟩ := htrack
  exact ⟨by decide, rfl, h, r, hw, htrack, TableLayout.holds_iff.2 ⟨by decide, hkey⟩, _, rfl, by decide⟩

end Tabulate
