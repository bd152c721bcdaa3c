import Tabulate.Database.Basic
import Tabulate.Files.System
import Tabulate.Text.Basic

/-! What a store is told and what it answers: the text of its statements, in which names stand in quotes with
quotes inside them doubled, the URL that says whether its database is in a file or in memory for as long as
it is open, and why it cannot be opened, laid out or filled. -/
namespace Tabulate

inductive StoreError where
  | noUrl
  | noVariables
  | connect
  | statement (text : String)
  | noTable (table : String)
  | noColumns (table : String)
  | tooManyColumns (table : String) (count limit : Nat)
  | keyNotColumn (key table : String)
  | tooWide (table : String) (count limit : Nat)
  | io (fault : IoFault)
deriving DecidableEq, Repr

def StoreError.message : StoreError → String
  | noUrl => "Configuration error: database_url must be provided"
  | noVariables => "Configuration error: max_vars must be greater than zero"
  | connect => "Libsql error during connect database"
  | statement text => "SQL error executing `" ++ text ++ "`"
  | noTable table => "Query error on `" ++ table ++ "`: table does not exist"
  | noColumns table => "Schema error: table `" ++ table ++ "` has no columns"
  | tooManyColumns table count limit =>
    "Schema error: table `" ++ table ++ "` has " ++ toString count ++
      " columns; tables can have a maximum of " ++ toString limit ++ " columns"
  | keyNotColumn key table =>
    "Schema error: primary key `" ++ key ++ "` is not a column of `" ++ table ++ "`"
  | tooWide table count limit =>
    "Schema error: table `" ++ table ++ "` has " ++ toString count ++ " columns, more than the " ++
      toString limit ++ " bound variables allowed per statement"
  | io fault => "IO error: " ++ fault.message

end Tabulate

namespace Tabulate.Statement

def quoteName (name : String) : String :=
  String.ofList ('"' :: name.toList.flatMap (fun c => if c = '"' then ['"', '"'] else [c]) ++ ['"'])

def columnText (c : Column) : String :=
  "   " ++ quoteName c.name ++ " " ++ c.type.sql ++ if c.primaryKey then " PRIMARY KEY" else ""

def createTable (table : String) (columns : List Column) : String :=
  "CREATE TABLE " ++ quoteName table ++ " (\n" ++ ",\n".intercalate (columns.map columnText) ++ "\n)"

def addColumn (table column : String) (type : ColumnType) : String :=
  "ALTER TABLE " ++ quoteName table ++ " ADD COLUMN " ++ quoteName column ++ " " ++ type.sql

def placeholders (columns : Nat) : String := "(" ++ ", ".intercalate (List.replicate columns "?") ++ ")"

def insert (table : String) (columns : List String) (rows : Nat) : String :=
  "INSERT INTO " ++ quoteName table ++ " (" ++ ", ".intercalate (columns.map quoteName) ++ ") VALUES " ++
    ", ".intercalate (List.replicate rows (placeholders columns.length))

def count (table : String) : String := "SELECT COUNT(*) FROM " ++ quoteName table

def select (table : String) : String := "SELECT * FROM " ++ quoteName table ++ " ORDER BY rowid"

def relaxed : String := "PRAGMA synchronous = OFF"

end Tabulate.Statement

namespace Tabulate

structure StoreConfig where
  url : String
  maxVars : Nat
deriving DecidableEq, Repr

def defaultMaxVars : Nat := 999

namespace StoreConfig

def inMemory : StoreConfig := ⟨":memory:", defaultMaxVars⟩

def maxColumns (c : StoreConfig) : Nat := min c.maxVars maxTableColumns

def trimmedUrl (c : StoreConfig) : String := String.ofList (Text.trim c.url.toList)

def isInMemory (c : StoreConfig) : Bool :=
  c.trimmedUrl = ":memory:" || Text.startsWith "file::memory:".toList c.trimmedUrl.toList ||
    Text.contains "mode=memory".toList c.trimmedUrl.toList

def path (c : StoreConfig) : String :=
  match Text.after? "file:".toList c.trimmedUrl.toList with
  | some cs => String.ofList cs
  | none => c.trimmedUrl

end StoreConfig

def isRemote (path : String) : Bool :=
  ["libsql:", "http:", "https:"].any fun scheme => Text.startsWith scheme.toList path.toList

namespace FileSystem

/-- The database at a path, which is made if there is nothing. Without a path, and with the path that
stands for memory, it belongs to no file. -/
def openDatabase (fs : FileSystem) (path : String) :
    Except StoreError (Database × Option (List String)) :=
  if path.isEmpty || path = ":memory:" then .ok (.empty, none)
  else if isRemote path || path.toList.getLast? = some '/' then .error .connect
  else match fs.locate path with
    | .error _ => .error .connect
    | .ok address =>
      match fs.at? address with
      | none => .ok (.empty, some address)
      | some (.database d) => .ok (d, some address)
      | some .directory => .error .connect
      | some (.file []) => .ok (.empty, some address)
      | some (.file _) => .error (.statement Statement.relaxed)

end FileSystem

end Tabulate
