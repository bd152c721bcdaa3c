import Tabulate.Database.Cell

/-! Databases as lists of tables with their rows. Names of tables and columns are one and the same
name where only the case of ASCII letters differs. A statement either succeeds or leaves the
database as it was. -/
namespace Tabulate

structure Column where
  name : String
  type : ColumnType
  primaryKey : Bool
deriving DecidableEq, Repr

structure Table where
  name : String
  columns : List Column
  rows : List (List Cell)
deriving DecidableEq, Repr

structure Database where
  tables : List Table := []
deriving DecidableEq, Repr

def maxTableColumns : Nat := 2000

def maxBoundValues : Nat := 32766

def foldCase (s : String) : String := s.map Char.toLower

def sameName (a b : String) : Bool := foldCase a = foldCase b

namespace Table

/-- The column that numbers the rows, if there is one: an integer column that is the primary key. -/
def rowNumberColumn? (t : Table) : Option Nat :=
  t.columns.findIdx? fun c => c.primaryKey && c.type = .integer

/-- Number a row: the numbering column takes an integer, or one more than the largest so far. SQLite
counts like this up to 2⁶³ - 1 and then takes free numbers at random; here there is no last number. -/
def numbered? (t : Table) (row : List Cell) : Option (List Cell) :=
  match t.rowNumberColumn? with
  | none => some row
  | some i =>
    match row[i]? with
    | some .null =>
      let used := t.rows.map fun r =>
        match r[i]? with
        | some (.integer n) => n
        | _ => 0
      some (row.set i (.integer ((used.max?.getD 0) + 1)))
    | some (.integer _) => some row
    | _ => none

def admits (t : Table) (row : List Cell) : Bool :=
  match t.columns.findIdx? Column.primaryKey with
  | none => true
  | some i => t.rows.all fun r => !((r[i]?.getD .null).sameKey (row[i]?.getD .null))

def insert? (t : Table) (values : List (Option String)) : Option Table := do
  let row ← t.numbered? (t.columns.zipWith (fun c v => Cell.ofValue c.type v) values)
  if t.admits row then some { t with rows := t.rows ++ [row] } else none

/-- What the name `rowid` sorts by: a column of that name, the numbering column, or the order of
insertion. -/
def sortColumn? (t : Table) : Option Nat :=
  (t.columns.findIdx? fun c => sameName c.name "rowid").or t.rowNumberColumn?

def sortedRows (t : Table) : List (List Cell) :=
  match t.sortColumn? with
  | none => t.rows
  | some i => t.rows.mergeSort fun a b => (a[i]?.getD .null).le (b[i]?.getD .null)

end Table

namespace Database

def empty : Database := {}

def table? (d : Database) (name : String) : Option Table :=
  d.tables.find? fun t => sameName t.name name

def update (d : Database) (t : Table) : Database :=
  ⟨d.tables.map fun u => if u.name = t.name then t else u⟩

def isReserved (name : String) : Bool := (foldCase name).toList.take 7 = "sqlite_".toList

def distinctNames : List String → Bool
  | [] => true
  | n :: ns => !ns.any (sameName n) && distinctNames ns

def create? (d : Database) (name : String) (columns : List Column) : Option Database :=
  if (d.table? name).isSome || isReserved name || columns.isEmpty ||
      columns.length > maxTableColumns || !distinctNames (columns.map Column.name) then none
  else some ⟨d.tables ++ [⟨name, columns, []⟩]⟩

def addColumn? (d : Database) (table column : String) (type : ColumnType) : Option Database := do
  let t ← d.table? table
  if t.columns.any (sameName ·.name column) || t.columns.length ≥ maxTableColumns then none
  else some (d.update { t with
    columns := t.columns ++ [⟨column, type, false⟩]
    rows := t.rows.map (· ++ [.null]) })

def insert? (d : Database) (table : String) (rows : List (List (Option String))) :
    Option Database := do
  let t ← d.table? table
  if rows.length * t.columns.length > maxBoundValues then none
  else some (d.update (← rows.foldlM Table.insert? t))

end Database

end Tabulate
