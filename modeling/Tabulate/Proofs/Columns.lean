import Tabulate.Proofs.Makings

/-! The columns of records. A node fills no column but those it declares, so a record holds its key,
the key of the record around it, the file name and the columns of its fields, and nothing else. -/
namespace Tabulate

open Effects
open Xml (Location)

namespace Record

theorem get?_join {column separator text : String} {r : Record} {c : String} (hc : c ≠ column) :
    (join column separator r text).get? c = r.get? c := by
  rw [join]
  split <;> rw [Dictionary.get?_insert, if_neg hc]

theorem get?_foldl_join {column separator : String} {texts : List String} {r : Record} {c : String}
    (hc : c ≠ column) : (texts.foldl (join column separator) r).get? c = r.get? c := by
  induction texts generalizing r with
  | nil => rfl
  | cons text texts ih => rw [List.foldl_cons, ih, get?_join hc]

/-- Filling a column leaves the others as they are. -/
theorem get?_fill {r : Record} {column : String} {rule : FieldRule} {texts : List String} {c : String}
    (hc : c ≠ column) : (r.fill column rule texts).get? c = r.get? c := by
  unfold fill
  cases texts.getLast? with
  | none => cases rule <;> rfl
  | some text =>
    cases rule with
    | plain => exact (Dictionary.get?_insert ..).trans (if_neg hc)
    | joiner separator => exact get?_foldl_join hc
    | enumMap table => exact (Dictionary.get?_insert ..).trans (if_neg hc)
    | enumType constant => exact (Dictionary.get?_insert ..).trans (if_neg hc)

end Record

theorem mem_keys_newRecord {s : Source} {e : Entity} {parent : Option Parent} {key c : String}
    (h : c ∈ (s.newRecord e parent key).keys) :
    c = idColumn ∨ c ∈ (parent.map fun p => parentColumn p.table).toList ∨
      c ∈ e.filenameColumn.toList := by
  unfold Source.newRecord at h
  cases parent <;> cases hf : e.filenameColumn <;>
    simp [hf, Record.empty, or_comm, or_left_comm] at h ⊢ <;> exact h

section Walk
variable {s : Source}

mutual

/-- A node leaves the columns that it does not declare as they are. -/
theorem SchemaNode.get?_walk {path : String} {parent : Option Parent} {c : String} :
    (n : SchemaNode) → c ∉ n.columns → ∀ {ls : List Location} {r r' : Record} {h h' : Harvest},
      n.walk s path parent ls r h = .ok r' h' → r'.get? c = r.get? c
  | .column name, hc => fun hw => by
    obtain ⟨rfl, -⟩ := pure_eq_ok.1 hw
    exact Record.get?_fill (by simpa [SchemaNode.columns] using hc)
  | .field name rule, hc => fun hw => by
    obtain ⟨rfl, -⟩ := pure_eq_ok.1 hw
    exact Record.get?_fill (by simpa [SchemaNode.columns] using hc)
  | .entity e fields, _ => fun hw => by
    obtain ⟨_, h₁, -, hp⟩ := bind_eq_ok.1 hw
    exact (pure_eq_ok.1 hp).1 ▸ rfl
  | .alternatives nodes, hc => fun hw => by
    have hall := foldlM_rel (R := fun p q => q.1.get? c = p.1.get? c) (fun _ => rfl)
      (by intro _ _ _ hab hbc; exact hbc.trans hab)
      (fun l _ _ _ _ _ hl => get?_walkEach nodes hc hl) hw
    exact hall
  | .invalid _, _ => fun hw => by
    rw [SchemaNode.walk] at hw
    split at hw
    · exact (pure_eq_ok.1 hw).1 ▸ rfl
    · exact absurd hw throw_ne_ok

theorem SchemaNode.get?_walkEach {path : String} {parent : Option Parent} {l : Location} {c : String} :
    (ns : List SchemaNode) → c ∉ columnsOf ns → ∀ {r r' : Record} {h h' : Harvest},
      walkEach s path parent l ns r h = .ok r' h' → r'.get? c = r.get? c
  | [], _ => fun hw => (pure_eq_ok.1 hw).1 ▸ rfl
  | n :: ns, hc => fun hw => by
    obtain ⟨r₁, h₁, hn, hns⟩ := bind_eq_ok.1 hw
    rw [columnsOf, List.mem_append, not_or] at hc
    exact (get?_walkEach ns hc.2 hns).trans (get?_walk n hc.1 hn)

end

theorem get?_walkFields {parent : Parent} {l : Location} {fs : List (String × SchemaNode)}
    {r r' : Record} {h h' : Harvest} (hw : walkFields s parent l fs r h = .ok r' h') {c : String}
    (hc : c ∉ SchemaNode.fieldColumns fs) : r'.get? c = r.get? c := by
  induction fs generalizing r h with
  | nil => exact (pure_eq_ok.1 hw).1 ▸ rfl
  | cons f fs ih =>
    obtain ⟨found, h₁, -, hw⟩ := bind_eq_ok.1 hw
    obtain ⟨r₁, h₂, hn, hfs⟩ := bind_eq_ok.1 hw
    rw [SchemaNode.fieldColumns, List.flatMap_cons, List.mem_append, not_or] at hc
    exact (ih hfs hc.2).trans (SchemaNode.get?_walk f.2 hc.1 hn)

theorem mem_keys_walkFields {parent : Parent} {l : Location} {fs : List (String × SchemaNode)}
    {r r' : Record} {h h' : Harvest} (hw : walkFields s parent l fs r h = .ok r' h') {c : String}
    (hc : c ∈ r'.keys) : c ∈ r.keys ∨ c ∈ SchemaNode.fieldColumns fs := by
  by_cases hf : c ∈ SchemaNode.fieldColumns fs
  · exact .inr hf
  · rw [Dictionary.mem_keys_iff, get?_walkFields hw hf] at hc
    exact .inl ((Dictionary.mem_keys_iff ..).2 hc)

/-- A record has no column that its declaration does not collect, its own key aside. -/
theorem Making.mem_columns {m : Making} {h h' : Harvest} (hm : m.Made s h h') {c : String}
    (hc : c ∈ m.record.keys) : c = idColumn ∨ c ∈ m.declaration.columns := by
  obtain ⟨h₁, -, hfields⟩ := hm
  have hcols : m.declaration.columns =
      (if m.entity.primaryKey.isSome || (m.parent.map Parent.table).isSome then [idColumn] else []) ++
        (m.parent.map fun p => parentColumn p.table).toList ++ m.entity.filenameColumn.toList ++
        SchemaNode.fieldColumns m.fields := by
    rw [Declaration.columns, Making.declaration, Entity.columns, Option.map_map]
    rfl
  rw [hcols]
  rcases mem_keys_walkFields hfields hc with hc | hc
  · rcases mem_keys_newRecord hc with hc | hc | hc
    · exact .inl hc
    · simp [hc]
    · simp [hc]
  · simp [hc]

end Walk

end Tabulate
