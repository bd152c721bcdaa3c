import Tabulate.Proofs.Columns
import Tabulate.Proofs.Nests

/-! Records refer to the records around them. A record inside another was made for a match that was
looked for from the other's element, and holds the other's key. Where no field writes over keys, the
other record holds that key too, and both are among the records that the walk brings in. -/
namespace Tabulate

open Effects
open Xml (Location)
open Nest (begunIn doneIn)

namespace SchemaNode

mutual

def entities : SchemaNode → List (Entity × List (String × SchemaNode))
  | entity e fields => [(e, fields)]
  | alternatives nodes => entitiesOf nodes
  | _ => []
termination_by structural n => n

def entitiesOf : List SchemaNode → List (Entity × List (String × SchemaNode))
  | [] => []
  | n :: ns => n.entities ++ entitiesOf ns
termination_by structural ns => ns

end

end SchemaNode

namespace Declaration

def keyColumns (d : Declaration) : List String := idColumn :: (d.enclosing.map parentColumn).toList

def filledColumns (d : Declaration) : List String :=
  d.entity.filenameColumn.toList ++ SchemaNode.fieldColumns d.fields

def KeepsKeys (d : Declaration) : Prop := ∀ c ∈ d.keyColumns, c ∉ d.filledColumns

instance (d : Declaration) : Decidable d.KeepsKeys := by
  unfold KeepsKeys
  infer_instance

end Declaration

theorem parentColumn_ne_idColumn (table : String) : parentColumn table ≠ idColumn := by
  intro h
  have hlength := congrArg String.length h
  rw [parentColumn, String.length_append] at hlength
  have hid : idColumn.length = 2 := rfl
  have hsuffix : "_id".length = 3 := rfl
  omega

namespace Source
variable {s : Source} {e : Entity} {parent : Option Parent} {key : String}

theorem get?_newRecord_id (he : e.filenameColumn ≠ some idColumn) :
    (s.newRecord e parent key).get? idColumn = some (some key) := by
  unfold newRecord
  cases hf : e.filenameColumn with
  | none => cases parent <;> simp [(parentColumn_ne_idColumn _).symm]
  | some column =>
    have hne : idColumn ≠ column := fun h => he (by rw [hf, h])
    cases parent <;> simp [hne, (parentColumn_ne_idColumn _).symm]

theorem get?_newRecord_parent {p : Parent} (he : e.filenameColumn ≠ some (parentColumn p.table)) :
    (s.newRecord e (some p) key).get? (parentColumn p.table) = some (some p.key) := by
  unfold newRecord
  cases hf : e.filenameColumn with
  | none => simp
  | some column =>
    have hne : parentColumn p.table ≠ column := fun h => he (by rw [hf, h])
    simp [hne]

end Source

namespace Making
variable {s : Source} {m : Making} {a b : Harvest}

theorem get?_of_made (hm : m.Made s a b) {c : String} (hc : c ∉ m.declaration.filledColumns) :
    m.record.get? c = (s.newRecord m.entity m.parent m.key).get? c := by
  obtain ⟨h₁, -, hfields⟩ := hm
  exact get?_walkFields hfields fun h => hc (List.mem_append_right _ h)

theorem filename_ne_of_not_mem {c : String} (hc : c ∉ m.declaration.filledColumns) :
    m.entity.filenameColumn ≠ some c := by
  intro h
  exact hc (List.mem_append_left _ (by simp [declaration, h]))

theorem get?_id (hd : m.declaration.KeepsKeys) (hm : m.Made s a b) :
    m.record.get? idColumn = some (some m.key) := by
  have hid : idColumn ∉ m.declaration.filledColumns := hd idColumn (by simp [Declaration.keyColumns])
  rw [get?_of_made hm hid, Source.get?_newRecord_id (filename_ne_of_not_mem hid)]

theorem get?_parent (hd : m.declaration.KeepsKeys) (hm : m.Made s a b) {p : Parent}
    (hp : m.parent = some p) : m.record.get? (parentColumn p.table) = some (some p.key) := by
  have hcolumn : parentColumn p.table ∉ m.declaration.filledColumns :=
    hd _ (by simp [Declaration.keyColumns, declaration, hp])
  rw [get?_of_made hm hcolumn, hp, Source.get?_newRecord_parent (filename_ne_of_not_mem hcolumn)]

structure MadeFor (parent : Option Parent) (ls : List Location)
    (es : List (Entity × List (String × SchemaNode))) (m : Making) : Prop where
  parent : m.parent = parent
  place : m.place ∈ ls
  entity : (m.entity, m.fields) ∈ es

theorem MadeFor.of_mem {parent : Option Parent} {l : Location} {ls : List Location}
    {es : List (Entity × List (String × SchemaNode))} (h : m.MadeFor parent [l] es) (hl : l ∈ ls) :
    m.MadeFor parent ls es :=
  ⟨h.parent, by rwa [List.mem_singleton.1 h.place], h.entity⟩

def ResolvedFrom (s : Source) (l : Location) (paths : List (String × SchemaNode)) (m : Making) : Prop :=
  ∃ path n ls, (path, n) ∈ paths ∧ s.document.resolve s.namespaces path l = .ok ls ∧ m.place ∈ ls ∧
    (m.entity, m.fields) ∈ n.entities

/-- One record was made inside the other: for a match that was looked for from the other's place. -/
structure Encloses (s : Source) (outer inner : Making) : Prop where
  parent : inner.parent = some ⟨outer.entity.table, outer.key⟩
  resolved : inner.ResolvedFrom s outer.place outer.fields

theorem record_mem_tables {ms : List Making} (hm : m ∈ ms) :
    ∃ rs, (tables ms).get? m.entity.table = some rs ∧ m.record ∈ rs := by
  have hrow : m.record ∈ rows ms m.entity.table :=
    List.mem_map.2 ⟨m, List.mem_filter.2 ⟨hm, by simp⟩, rfl⟩
  exact ⟨_, by rw [get?_tables, if_neg (List.ne_nil_of_mem hrow)], hrow⟩

end Making

section Outermost
variable {s : Source} {parent : Option Parent}

mutual

/-- The outermost records of a walk along a node are made for its matches, inside the record around. -/
theorem SchemaNode.outermost_watch {path : String} :
    (n : SchemaNode) → ∀ (ls : List Location) {r r' : Record} {ns : List Nest} {h h' : Harvest},
      n.watch s path parent ls r h = .ok (r', ns) h' → ∀ t ∈ ns, t.outermost.MadeFor parent ls n.entities
  | .column _ => fun _ _ _ _ _ _ hw => by
    cases hw
    exact nofun
  | .field .. => fun _ _ _ _ _ _ hw => by
    cases hw
    exact nofun
  | .entity e fields => fun ls _ _ _ _ _ hw => by
    obtain ⟨nests, h₁, hloop, hp⟩ := bind_eq_ok.1 hw
    cases hp
    have hall := mapM_forall (P := fun t : Nest => t.outermost.MadeFor parent ls [(e, fields)])
      (g := fun t => [t]) (fun l hl a t b hw => ?_) hloop
    · rwa [List.flatMap_singleton'] at hall
    obtain ⟨key, a₁, hkey, hw⟩ := bind_eq_ok.1 hw
    obtain ⟨⟨filled, inner⟩, a₂, hfields, hw⟩ := bind_eq_ok.1 hw
    obtain ⟨_, a₃, hpush, hw⟩ := bind_eq_ok.1 hw
    cases hw
    intro t ht
    cases List.mem_singleton.1 ht
    exact ⟨rfl, hl, by simp [Nest.outermost]⟩
  | .alternatives nodes => fun ls _ _ _ _ _ hw => by
    obtain ⟨more, rfl, hmore⟩ := collect_rel (f := fun r l => watchEach s path parent l nodes r)
      (R := fun _ ts _ => ∀ t ∈ ts, t.outermost.MadeFor parent ls (SchemaNode.entitiesOf nodes))
      (fun _ => nofun)
      (fun hc hd t ht => (List.mem_append.1 ht).elim (hc t) (hd t))
      (fun l hl _ _ _ _ _ hw t ht => (outermost_watchEach nodes hw t ht).of_mem hl) hw
    exact hmore
  | .invalid _ => fun ls _ _ _ _ _ hw => by
    rw [SchemaNode.watch] at hw
    split at hw
    · cases hw
      exact nofun
    · exact absurd hw throw_ne_ok

theorem outermost_watchEach {path : String} {l : Location} :
    (nodes : List SchemaNode) → ∀ {r r' : Record} {ns : List Nest} {h h' : Harvest},
      watchEach s path parent l nodes r h = .ok (r', ns) h' → ∀ t ∈ ns,
        t.outermost.MadeFor parent [l] (SchemaNode.entitiesOf nodes)
  | [] => fun hw => by
    cases hw
    exact nofun
  | n :: nodes => fun hw t ht => by
    obtain ⟨⟨r₁, ns⟩, h₁, hn, hw⟩ := bind_eq_ok.1 hw
    obtain ⟨⟨r₂, more⟩, h₂, hnodes, hp⟩ := bind_eq_ok.1 hw
    cases hp
    rw [SchemaNode.entitiesOf]
    rcases List.mem_append.1 ht with ht | ht
    · have hm := n.outermost_watch [l] hn t ht
      exact ⟨hm.parent, hm.place, List.mem_append_left _ hm.entity⟩
    · have hm := outermost_watchEach nodes hnodes t ht
      exact ⟨hm.parent, hm.place, List.mem_append_right _ hm.entity⟩

end

theorem outermost_watchFields {p : Parent} {l : Location} {fs : List (String × SchemaNode)} {r r' : Record}
    {ns : List Nest} {h h' : Harvest} (hw : watchFields s p l fs r h = .ok (r', ns) h') :
    ∀ t ∈ ns, t.outermost.parent = some p ∧ t.outermost.ResolvedFrom s l fs := by
  induction fs generalizing r r' ns h h' with
  | nil =>
    cases hw
    exact nofun
  | cons f fs ih =>
    obtain ⟨found, h₁, hfound, hw⟩ := bind_eq_ok.1 hw
    obtain ⟨⟨r₁, ns⟩, h₂, hn, hw⟩ := bind_eq_ok.1 hw
    obtain ⟨⟨r₂, more⟩, h₃, hfs, hp⟩ := bind_eq_ok.1 hw
    cases hp
    intro t ht
    rcases List.mem_append.1 ht with ht | ht
    · have hm := f.2.outermost_watch found hn t ht
      exact ⟨hm.parent, f.1, f.2, found, by simp, (matchesOf_eq_ok hfound).1, hm.place, hm.entity⟩
    · obtain ⟨hparent, path, n, ls, hmem, hls, hplace, he⟩ := ih hfs t ht
      exact ⟨hparent, path, n, ls, List.mem_cons_of_mem f hmem, hls, hplace, he⟩

theorem outermost_watchSchema {schema : Schema} {ns : List Nest} {h h' : Harvest}
    (hw : Tabulator.watch s schema h = .ok ns h') : ∀ t ∈ ns,
      t.outermost.parent = none ∧ t.outermost.ResolvedFrom s s.document.element schema.paths := by
  obtain ⟨nests, h₁, hloop, hp⟩ := bind_eq_ok.1 hw
  cases hp
  rw [← List.flatMap_id]
  refine mapM_forall (fun p hp a ns b hw t ht => ?_) hloop
  obtain ⟨found, a₁, hfound, hw⟩ := bind_eq_ok.1 hw
  obtain ⟨⟨r, ns⟩, a₂, hn, hw⟩ := bind_eq_ok.1 hw
  cases hw
  have hm := p.2.outermost_watch found hn t ht
  exact ⟨hm.parent, p.1, p.2, found, hp, (matchesOf_eq_ok hfound).1, hm.place, hm.entity⟩

end Outermost

/-- Every record that is begun is outermost or inside another. -/
theorem begun_enclosed {s : Source} {schema : Schema} {ns : List Nest} {h h' : Harvest}
    (hw : Tabulator.watch s schema h = .ok ns h') : ∀ m ∈ begunIn ns,
      (∃ t ∈ ns, t.outermost = m) ∨ ∃ o ∈ begunIn ns, o.Encloses s m := by
  let R (_ : Harvest) (ns : List Nest) (_ : Harvest) : Prop := ∀ m ∈ begunIn ns,
    (∃ t ∈ ns, t.outermost = m) ∨ ∃ o ∈ begunIn ns, o.Encloses s m
  have W : NestStable s schema.declarations R :=
    { refl := fun h => by simp [R, begunIn]
      trans := by
        intro a b c ns more hns hmore m hm
        simp only [Nest.begunIn_append, List.mem_append] at hm ⊢
        rcases hm with hm | hm
        · rcases hns m hm with ⟨t, ht, hto⟩ | ⟨o, ho, hom⟩
          · exact .inl ⟨t, .inl ht, hto⟩
          · exact .inr ⟨o, .inl ho, hom⟩
        · rcases hmore m hm with ⟨t, ht, hto⟩ | ⟨o, ho, hom⟩
          · exact .inl ⟨t, .inr ht, hto⟩
          · exact .inr ⟨o, .inr ho, hom⟩
      warned := fun h w => by simp [R, begunIn]
      recorded := by
        intro m inner h h₁ h₂ _ _ hfields hinner k hk
        rw [Nest.begunIn_record] at hk ⊢
        rcases List.mem_cons.1 hk with rfl | hk
        · exact .inl ⟨_, List.mem_singleton.2 rfl, rfl⟩
        · refine .inr ?_
          rcases hinner k hk with ⟨t, ht, rfl⟩ | ⟨o, ho, hok⟩
          · obtain ⟨hparent, hresolved⟩ := outermost_watchFields hfields t ht
            exact ⟨m, by simp, hparent, hresolved⟩
          · exact ⟨o, List.mem_cons_of_mem m ho, hok⟩ }
  exact W.watchSchema hw

/-- Where no field writes over keys, every record holds its key. A record is made either for a match of
a top-level path, with none around it, or inside another that is made by the same walk, for a match
that was looked for from the other's element: then it holds the other's key, and so does the other,
which is in its table. -/
theorem nested_records_refer {schema : Schema} (hkeys : ∀ d ∈ schema.declarations, d.KeepsKeys)
    {s : Source} {counters : KeyCounters} {h : Harvest}
    (hw : Tabulator.walk s schema { counters } = .ok () h) :
    ∃ ns, Tabulator.watch s schema { counters } = .ok ns h ∧ h.tables = Making.tables (doneIn ns) ∧
      ∀ m ∈ doneIn ns, m.declaration ∈ schema.declarations ∧
        m.record.get? idColumn = some (some m.key) ∧
        (m.parent = none ∧ m.ResolvedFrom s s.document.element schema.paths ∨
          ∃ o ∈ doneIn ns, o.Encloses s m ∧
            m.record.get? (parentColumn o.entity.table) = some (some o.key) ∧
            o.record.get? idColumn = some (some o.key) ∧
            ∃ rs, h.tables.get? o.entity.table = some rs ∧ o.record ∈ rs) := by
  obtain ⟨ns, hns⟩ := watch_eq_ok.2 hw
  obtain ⟨htables, hmade⟩ := watch_makings hns
  rw [Tables.empty_merge] at htables
  have hbegun (m : Making) : m ∈ doneIn ns ↔ m ∈ begunIn ns := (Nest.doneIn_perm_begunIn ns).mem_iff
  refine ⟨ns, hns, htables, fun m hm => ?_⟩
  obtain ⟨hd, a, b, hab⟩ := hmade m hm
  refine ⟨hd, Making.get?_id (hkeys _ hd) hab, ?_⟩
  rcases begun_enclosed hns m ((hbegun m).1 hm) with ⟨t, ht, rfl⟩ | ⟨o, ho, hom⟩
  · exact .inl (outermost_watchSchema hns t ht)
  · have ho := (hbegun o).2 ho
    obtain ⟨hdo, c, d, hcd⟩ := hmade o ho
    refine .inr ⟨o, ho, hom, Making.get?_parent (hkeys _ hd) hab hom.parent,
      Making.get?_id (hkeys _ hdo) hcd, ?_⟩
    rw [htables]
    exact Making.record_mem_tables ho

def trackedAlbums : Schema where
  paths := [("album", .entity ⟨"album", some (.single "name"), none⟩
    [("track", .alternatives [.entity ⟨"track", none, some "file"⟩ [(".", .column "title")], .column "last"])])]

def trackedSource : Source where
  document := ⟨[.element ⟨none, "album"⟩ [] []
    [.element ⟨none, "name"⟩ [] [] [.text "Pink Moon"], .element ⟨none, "track"⟩ [] [] [.text "Road"]]]⟩
  namespaces := .empty
  filename := none

theorem nested_records_refer_tracks : (∀ d ∈ trackedAlbums.declarations, d.KeepsKeys) ∧
    ∃ h ns, Tabulator.walk trackedSource trackedAlbums { counters := .empty } = .ok () h ∧
      h.tables.keys = ["album", "track"] ∧ h.tables = Making.tables (doneIn ns) ∧
      ∀ m ∈ doneIn ns, m.record.get? idColumn = some (some m.key) ∧
        (m.parent = none ∨ ∃ o ∈ doneIn ns, o.Encloses trackedSource m ∧
          m.record.get? (parentColumn o.entity.table) = o.record.get? idColumn) := by
  have hkeys : ∀ d ∈ trackedAlbums.declarations, d.KeepsKeys := by decide
  obtain ⟨h, hw, htables⟩ := exists_of_succeeds (p := fun h => h.tables.keys = ["album", "track"])
    (r := Tabulator.walk trackedSource trackedAlbums { counters := .empty }) (by decide +kernel)
  obtain ⟨ns, -, hns, hall⟩ := nested_records_refer hkeys hw
  refine ⟨hkeys, h, ns, hw, by simpa using htables, hns, fun m hm => ?_⟩
  obtain ⟨-, hid, hplace⟩ := hall m hm
  refine ⟨hid, hplace.imp And.left fun ⟨o, ho, hom, hparent, hoid, _⟩ => ⟨o, ho, hom, ?_⟩⟩
  rw [hparent, hoid]

end Tabulate
