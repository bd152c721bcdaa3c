import Tabulate.Proofs.Declarations
import Tabulate.Proofs.Effects
import Tabulate.Proofs.Tables
import Tabulate.Record.Tabulator
import Mathlib.Data.List.Induction

/-! What a walk makes. A record is made for a place, with a key that is told or numbered, and the
records that are made fill tables in the order in which they are done. -/
namespace Tabulate

open Effects
open Xml (Location)

/-- A record with what it was made from: an entity, the record around it, and a place. -/
structure Making where
  entity : Entity
  fields : List (String × SchemaNode)
  parent : Option Parent
  place : Location
  key : String
  record : Record

namespace Making

def declaration (m : Making) : Declaration := ⟨m.entity, m.fields, m.parent.map Parent.table⟩

def parentKey (m : Making) : String := (m.parent.map Parent.key).getD noParentKey

/-- The walk makes this record, beginning with one harvest and ending with the other. -/
def Made (s : Source) (m : Making) (h h' : Harvest) : Prop :=
  ∃ h₁, s.recordKey m.entity m.parent m.place h = .ok m.key h₁ ∧
    walkFields s ⟨m.entity.table, m.key⟩ m.place m.fields (s.newRecord m.entity m.parent m.key) h₁ =
      .ok m.record h'

end Making

section Steps
variable {s : Source} {h h' : Harvest}

theorem matchesOf_eq_ok {path : String} {n : SchemaNode} {l : Location} {ls : List Location}
    (hw : s.matchesOf path n l h = .ok ls h') :
    s.document.resolve s.namespaces path l = .ok ls ∧
      (h' = h ∨ ∃ w, h' = { h with warnings := h.warnings ++ [w] }) := by
  rw [Source.matchesOf] at hw
  cases hf : s.document.resolve s.namespaces path l with
  | error e =>
    rw [hf] at hw
    exact absurd hw throw_ne_ok
  | ok found =>
    simp only [hf] at hw
    by_cases hmany : (decide (found.length > 1) && !n.toleratesMultiple) = true
    · rw [if_pos hmany] at hw
      obtain ⟨_, h₁, hwarn, hp⟩ := bind_eq_ok.1 hw
      obtain ⟨rfl, rfl⟩ := pure_eq_ok.1 hp
      cases hwarn
      exact ⟨rfl, .inr ⟨_, rfl⟩⟩
    · rw [if_neg hmany] at hw
      obtain ⟨rfl, rfl⟩ := pure_eq_ok.1 hw
      exact ⟨rfl, .inl rfl⟩

def Source.toldKey? (s : Source) (e : Entity) (l : Location) : Option String :=
  (s.explicitKey e l).toOption.join.filter fun key => !key.isEmpty

/-- A key is told, or it is the next number below the key of the record around. -/
theorem recordKey_eq_ok {e : Entity} {parent : Option Parent} {l : Location} {key : String}
    (hw : s.recordKey e parent l h = .ok key h') :
    (s.toldKey? e l = some key ∧ h' = h) ∨
    (s.toldKey? e l = none ∧ ∃ parentKey, parentKey = (parent.map Parent.key).getD noParentKey ∧
      key = syntheticKey parentKey (h.counters.count e.table parentKey) ∧
      h' = { h with counters := (h.counters.next e.table parentKey).2 }) := by
  obtain ⟨explicit, h₁, he, hk⟩ := bind_eq_ok.1 hw
  obtain ⟨hexplicit, rfl⟩ := ofExcept_eq_ok.1 he
  have htold : s.toldKey? e l = explicit.filter fun key => !key.isEmpty := by
    rw [Source.toldKey?, hexplicit]
    rfl
  rw [htold]
  cases hexp : explicit.filter fun key => !key.isEmpty with
  | some told =>
    rw [hexp] at hk
    obtain ⟨rfl, rfl⟩ := pure_eq_ok.1 hk
    exact .inl ⟨rfl, rfl⟩
  | none =>
    rw [hexp] at hk
    obtain ⟨n, h₂, hn, hp⟩ := bind_eq_ok.1 hk
    obtain ⟨rfl, rfl⟩ := pure_eq_ok.1 hp
    cases hn
    exact .inr ⟨rfl, _, rfl, rfl, rfl⟩

end Steps

namespace Making

def tables (ms : List Making) : Tables :=
  ms.foldl (fun t m => t.append m.entity.table [m.record]) .empty

theorem foldl_append (ms : List Making) (t : Tables) :
    ms.foldl (fun t m => t.append m.entity.table [m.record]) t = t.merge (tables ms) := by
  induction ms generalizing t with
  | nil => rfl
  | cons m ms ih =>
    rw [tables, List.foldl_cons, List.foldl_cons, ih, ih (Tables.empty.append ..),
      ← Tables.merge_assoc, ← Tables.merge_append, Tables.merge_empty]

theorem tables_append (ms ns : List Making) : tables (ms ++ ns) = (tables ms).merge (tables ns) := by
  rw [tables, List.foldl_append, foldl_append]
  rfl

theorem tables_single (m : Making) : tables [m] = Tables.empty.append m.entity.table [m.record] := rfl

def rows (ms : List Making) (table : String) : List Record :=
  (ms.filter fun m => m.entity.table = table).map Making.record

theorem get?_tables (ms : List Making) (table : String) :
    (tables ms).get? table = if rows ms table = [] then none else some (rows ms table) := by
  induction ms using List.reverseRecOn with
  | nil => rfl
  | append_singleton ms m ih =>
    rw [tables_append, tables_single, ← Tables.merge_append, Tables.merge_empty, Tables.get?_append]
    by_cases h : table = m.entity.table
    · subst h
      have hrows : rows (ms ++ [m]) m.entity.table = rows ms m.entity.table ++ [m.record] := by
        simp [rows]
      rw [ih, hrows]
      by_cases hnil : rows ms m.entity.table = [] <;> simp [hnil]
    · have hrows : rows (ms ++ [m]) table = rows ms table := by
        simp [rows, Ne.symm h]
      rw [if_neg h, ih, hrows]

theorem eq_rows_of_get?_tables {ms : List Making} {table : String} {rs : List Record}
    (h : (tables ms).get? table = some rs) : rs ≠ [] ∧ rs = rows ms table := by
  rw [get?_tables] at h
  split at h
  · cases h
  · next hne =>
    cases h
    exact ⟨hne, rfl⟩

theorem mem_keys_tables {ms : List Making} {table : String} (h : table ∈ (tables ms).keys) :
    ∃ m ∈ ms, m.entity.table = table := by
  obtain ⟨rs, hrs⟩ := (Dictionary.mem_keys_iff ..).1 h
  obtain ⟨hne, rfl⟩ := eq_rows_of_get?_tables hrs
  obtain ⟨r, hr⟩ := List.exists_mem_of_ne_nil _ hne
  obtain ⟨m, hm, -⟩ := List.mem_map.1 hr
  exact ⟨m, (List.mem_filter.1 hm).1, by simpa using (List.mem_filter.1 hm).2⟩

end Making

end Tabulate
