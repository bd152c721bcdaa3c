import Tabulate.Proofs.Layouts

/-! The entities that a schema declares, at any depth, each with the table of the entity around it.
The tables that a schema collects are the tables of its declarations, and a layout has the columns of
all declarations of its table. -/
namespace Tabulate

structure Declaration where
  entity : Entity
  fields : List (String × SchemaNode)
  enclosing : Option String

namespace Declaration

def columns (d : Declaration) : List String := d.entity.columns d.enclosing d.fields

def table (d : Declaration) : String × List String := (d.entity.table, d.columns)

def hasKeyColumn (d : Declaration) : Bool := d.entity.primaryKey.isSome || d.enclosing.isSome

theorem idColumn_mem_columns {d : Declaration} (h : d.hasKeyColumn = true) :
    idColumn ∈ d.columns := by
  rw [hasKeyColumn] at h
  simp [columns, Entity.columns, h]

end Declaration

namespace SchemaNode

mutual

def declarations (enclosing : Option String) : SchemaNode → List Declaration
  | entity e fields => declarationsIn e.table fields ++ [⟨e, fields, enclosing⟩]
  | alternatives nodes => declarationsOf enclosing nodes
  | _ => []
termination_by structural n => n

def declarationsOf (enclosing : Option String) : List SchemaNode → List Declaration
  | [] => []
  | n :: ns => n.declarations enclosing ++ declarationsOf enclosing ns
termination_by structural ns => ns

def declarationsIn (table : String) : List (String × SchemaNode) → List Declaration
  | [] => []
  | (_, n) :: fs => n.declarations (some table) ++ declarationsIn table fs
termination_by structural fs => fs

end

mutual

theorem tables_eq (enclosing : Option String) :
    (n : SchemaNode) → n.tables enclosing = (n.declarations enclosing).map Declaration.table
  | column _ => rfl
  | field .. => rfl
  | entity e fields => by
    rw [tables, declarations, List.map_append, fieldTables_eq e.table fields]
    rfl
  | alternatives nodes => tablesOf_eq enclosing nodes
  | invalid _ => rfl

theorem tablesOf_eq (enclosing : Option String) : (ns : List SchemaNode) →
    tablesOf enclosing ns = (declarationsOf enclosing ns).map Declaration.table
  | [] => rfl
  | n :: ns => by
    rw [tablesOf, declarationsOf, List.map_append, tables_eq enclosing n, tablesOf_eq enclosing ns]

theorem fieldTables_eq (table : String) : (fs : List (String × SchemaNode)) →
    fieldTables table fs = (declarationsIn table fs).map Declaration.table
  | [] => rfl
  | (_, n) :: fs => by
    rw [fieldTables, declarationsIn, List.map_append, tables_eq (some table) n,
      fieldTables_eq table fs]

end

end SchemaNode

namespace Schema

def declarations (s : Schema) : List Declaration := s.paths.flatMap fun p => p.2.declarations none

theorem tables_eq_map (s : Schema) : s.tables = s.declarations.map Declaration.table := by
  simp only [tables, declarations, List.map_flatMap, SchemaNode.tables_eq]

theorem mem_columns_iff {s : Schema} {ls : List TableLayout} (h : s.layouts = .ok ls) {l : TableLayout}
    (hl : l ∈ ls) (c : String) :
    c ∈ l.columns ↔ ∃ d ∈ s.declarations, d.entity.table = l.name ∧ c ∈ d.columns := by
  have hnamed := named?_of_layout h hl
  rw [layouts_eq_ok h] at hnamed
  rw [TableLayout.mem_columns_addTables hnamed, tables_eq_map]
  simp [TableLayout.named?, Declaration.table]

end Schema

end Tabulate
