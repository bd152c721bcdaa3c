import Tabulate.Database.Connection
import Tabulate.Number
import Tabulate.Record.Basic
import Tabulate.Schema.Layout

/-! A database that takes in records. Tables are made from layouts, and widened where a layout has
more columns than they have. -/
namespace Tabulate

inductive StoreWarning where
  | flushRolledBack
deriving DecidableEq, Repr

def StoreWarning.message : StoreWarning → String
  | flushRolledBack => "Rolling back flush"

structure Store where
  config : StoreConfig
  address : Option (List String)
  database : Database
  warnings : List StoreWarning := []

/-- What is done with a store. Statements that succeeded before an error keep their effect. -/
abbrev Storing := EStateM StoreError Store

namespace Store

def save (s : Store) (fs : FileSystem) : FileSystem :=
  match s.address with
  | some address => fs.set address (.database s.database)
  | none => fs

def openAt (c : StoreConfig) (fs : FileSystem) : Except StoreError Store × FileSystem :=
  if c.trimmedUrl.isEmpty then (.error .noUrl, fs)
  else if c.maxVars = 0 then (.error .noVariables, fs)
  else
    let (made, fs) : Except IoFault Unit × FileSystem :=
      match c.isInMemory, (FilePath.parent? c.path).filter (!·.isEmpty) with
      | false, some parent => (fs.makeDirectories parent).swap
      | _, _ => (.ok (), fs)
    match made with
    | .error fault => (.error (.io fault), fs)
    | .ok () =>
      match fs.openDatabase c.path with
      | .error e => (.error e, fs)
      | .ok (database, address) =>
        let s : Store := ⟨c, address, database, []⟩
        (.ok s, s.save fs)

def execute (text : String) (f : Database → Option Database) : Storing Unit := do
  match f (← get).database with
  | some database => modify fun s => { s with database }
  | none => throw (.statement text)

def tableNames (s : Store) : List String := s.database.tables.map Table.name

def hasTable (s : Store) (table : String) : Bool := s.tableNames.contains table

def columns (s : Store) (table : String) : List Column :=
  ((s.database.table? table).map Table.columns).getD []

def inOrder (order : List String) (columns : List Column) : List Column :=
  let place (c : Column) : Nat := order.findIdx (· = c.name)
  columns.mergeSort fun a b => place a ≤ place b

def createTable (table : String) (columns : List (String × ColumnType)) (key : Option String)
    (order : List String) : Storing Unit := do
  let limit := (← get).config.maxColumns
  if columns.isEmpty then throw (.noColumns table)
  if columns.length > limit then throw (.tooManyColumns table columns.length limit)
  match key with
  | some k => if !columns.any (·.1 = k) then throw (.keyNotColumn k table)
  | none => pure ()
  let ordered := inOrder order (columns.map fun c => ⟨c.1, c.2, key = some c.1⟩)
  execute (Statement.createTable table ordered) (·.create? table ordered)

def addColumn (table column : String) (type : ColumnType) : Storing Unit :=
  execute (Statement.addColumn table column type) (·.addColumn? table column type)

/-- Make the table of a layout if there is none, else add the columns that it lacks. `existing` are the
names of the tables that are there. -/
def prepareTable (existing : List String) (l : TableLayout) : Storing Unit := do
  if existing.contains l.name then
    let present := ((← get).columns l.name).map Column.name
    (l.columns.filter (!present.contains ·)).forM fun c => addColumn l.name c .text
  else createTable l.name (l.columns.map (·, .text)) l.primaryKey l.columns

def prepare (ls : List TableLayout) : Storing Unit := do
  let existing := (← get).tableNames
  ls.forM (prepareTable existing)

/-- Cut a list into pieces of `n` members; only the last may be shorter. -/
def chunks (n : Nat) (xs : List α) : List (List α) := go xs.length xs
where
  go : Nat → List α → List (List α)
    | 0, _ => []
    | _ + 1, [] => []
    | fuel + 1, x :: xs => (x :: xs).take n :: go fuel ((x :: xs).drop n)

def valueOf (r : Record) (column : String) : Option String := (r.get? column).join

def insertAll (table : String) (rs : List Record) : Storing Nat := do
  if rs.isEmpty then return 0
  let s ← get
  let names := (s.columns table).map Column.name
  if names.isEmpty then throw (.noTable table)
  if names.length > s.config.maxVars then throw (.tooWide table names.length s.config.maxVars)
  (chunks (s.config.maxVars / names.length) rs).forM fun batch =>
    execute (Statement.insert table names batch.length)
      (·.insert? table (batch.map fun r => names.map (valueOf r)))
  return rs.length

def writeTables (t : Tables) : Storing Nat := fun s =>
  match (t.entries.mapM fun e => insertAll e.1 e.2) s with
  | .ok counts written => .ok (total counts) written
  -- records that were put into other tables before are taken back
  | .error e _ => .error e { s with warnings := s.warnings ++ [.flushRolledBack] }

def rowCount (s : Store) (table : String) : Except StoreError Nat :=
  match s.database.table? table with
  | some t => .ok t.rows.length
  | none => .error (.statement (Statement.count table))

def selectAll (s : Store) (table : String) : Except StoreError (List Record) :=
  match s.database.table? table with
  | some t => .ok (t.sortedRows.map fun row =>
      Dictionary.ofList (t.columns.zipWith (fun c cell => (c.name, cell.toValue)) row))
  | none => .error (.statement (Statement.select table))

end Store

end Tabulate
