import Tabulate.Schema.Basic

/-! The tables that a schema fills, with their columns in the order of their first mention. Entities
of one table share its columns. -/
namespace Tabulate

def idColumn : String := "id"

def parentColumn (table : String) : String := table ++ "_id"

structure TableLayout where
  name : String
  columns : List String
  primaryKey : Option String
deriving DecidableEq, Repr

namespace TableLayout

def hasColumn (l : TableLayout) (column : String) : Bool := l.columns.contains column

def addColumns : List String → List String → List String
  | columns, [] => columns
  | columns, c :: cs => addColumns (if columns.contains c then columns else columns ++ [c]) cs

def add (l : TableLayout) (columns : List String) : TableLayout :=
  let all := addColumns l.columns columns
  { l with columns := all, primaryKey := if all.contains idColumn then some idColumn else l.primaryKey }

def ofColumns (table : String) (columns : List String) : TableLayout := add ⟨table, [], none⟩ columns

def addTable (ls : List TableLayout) (table : String) (columns : List String) : List TableLayout :=
  match ls with
  | [] => [ofColumns table columns]
  | l :: ls => if l.name = table then l.add columns :: ls else l :: addTable ls table columns

end TableLayout

namespace SchemaNode

mutual

def columns : SchemaNode → List String
  | column name => [name]
  | field name _ => [name]
  | alternatives nodes => columnsOf nodes
  | _ => []
termination_by structural n => n

def columnsOf : List SchemaNode → List String
  | [] => []
  | n :: ns => n.columns ++ columnsOf ns
termination_by structural ns => ns

end

def fieldColumns (fields : List (String × SchemaNode)) : List String :=
  fields.flatMap fun f => f.2.columns

end SchemaNode

/-- The columns of an entity's records: their key if it is told or needed, the key of the record
around, the file name, and the columns of the fields. -/
def Entity.columns (e : Entity) (parent : Option String) (fields : List (String × SchemaNode)) :
    List String :=
  (if e.primaryKey.isSome || parent.isSome then [idColumn] else []) ++
    (parent.map parentColumn).toList ++ e.filenameColumn.toList ++ SchemaNode.fieldColumns fields

namespace SchemaNode

mutual

def tables (parent : Option String) : SchemaNode → List (String × List String)
  | entity e fields => fieldTables e.table fields ++ [(e.table, e.columns parent fields)]
  | alternatives nodes => tablesOf parent nodes
  | _ => []
termination_by structural n => n

def tablesOf (parent : Option String) : List SchemaNode → List (String × List String)
  | [] => []
  | n :: ns => n.tables parent ++ tablesOf parent ns
termination_by structural ns => ns

def fieldTables (table : String) : List (String × SchemaNode) → List (String × List String)
  | [] => []
  | (_, n) :: fs => n.tables (some table) ++ fieldTables table fs
termination_by structural fs => fs

end

mutual

def firstInvalid? (path : String) : SchemaNode → Option (String × String)
  | invalid description => some (path, description)
  | entity _ fields => firstInvalidField? fields
  | alternatives nodes => firstInvalidOf? path nodes
  | _ => none
termination_by structural n => n

def firstInvalidOf? (path : String) : List SchemaNode → Option (String × String)
  | [] => none
  | n :: ns => (n.firstInvalid? path).or (firstInvalidOf? path ns)
termination_by structural ns => ns

def firstInvalidField? : List (String × SchemaNode) → Option (String × String)
  | [] => none
  | (path, n) :: fs => (n.firstInvalid? path).or (firstInvalidField? fs)
termination_by structural fs => fs

end

end SchemaNode

namespace Schema

def tables (s : Schema) : List (String × List String) := s.paths.flatMap fun p => p.2.tables none

def layouts (s : Schema) : Except SchemaError (List TableLayout) :=
  match SchemaNode.firstInvalidField? s.paths with
  -- columns of an invalid node are not known
  | some (path, description) => .error (.invalidNode path description)
  | none => .ok (s.tables.foldl (fun ls t => TableLayout.addTable ls t.1 t.2) [])

def layout? (s : Schema) (table : String) : Except SchemaError (Option TableLayout) :=
  s.layouts.map fun ls => ls.find? (·.name = table)

end Schema

end Tabulate
