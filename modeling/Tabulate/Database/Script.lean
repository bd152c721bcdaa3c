import Tabulate.Database.Connection
import Tabulate.Text.Basic

/-! A database as the script that makes it, so that it can be kept in a file, and the reading of such a
script. Only what is written here is read. -/
namespace Tabulate

namespace Script

def quoted (q : Char) (s : String) : List Char :=
  q :: s.toList.flatMap (fun c => if c = q then [q, q] else [c]) ++ [q]

def unquote? (q : Char) : List Char → Option (List Char × List Char)
  | [] => none
  | c :: cs =>
    if c != q then (unquote? q cs).map fun r => (c :: r.1, r.2)
    else match cs with
      | [] => some ([], [])
      | d :: ds => if d = q then (unquote? q ds).map fun r => (q :: r.1, r.2) else some ([], d :: ds)

/-- A cell as a literal. Infinity is a number too large to be one. -/
def literal : Cell → List Char
  | .null => "NULL".toList
  | .text s => quoted '\'' s
  | .integer n => (toString n).toList
  | .real negative x => (if negative then ['-'] else []) ++ x.shortest.positional.toList
  | .infinite negative => (if negative then ['-'] else []) ++ "9e999".toList

def create (t : Table) : List Char := (Statement.createTable t.name t.columns).toList ++ [';', '\n']

def insert (t : Table) (row : List Cell) : List Char :=
  "INSERT INTO ".toList ++ quoted '"' t.name ++ " VALUES (".toList ++
    [',', ' '].intercalate (row.map literal) ++ [')', ';', '\n']

inductive Token where
  | name (s : String)
  | text (s : String)
  | word (s : String)
  | mark (c : Char)
deriving DecidableEq, Repr

def isMark (c : Char) : Bool := ['(', ')', ',', ';'].contains c

def isSpace (c : Char) : Bool := c = ' ' || c = '\n'

def tokens? : (fuel : Nat) → List Char → Option (List Token)
  | _, [] => some []
  | 0, _ => none
  | fuel + 1, c :: cs =>
    if isSpace c then tokens? fuel cs
    else if isMark c then (tokens? fuel cs).map (.mark c :: ·)
    else if c = '"' then do
      let (s, rest) ← unquote? c cs
      (tokens? fuel rest).map (.name (String.ofList s) :: ·)
    else if c = '\'' then do
      let (s, rest) ← unquote? c cs
      (tokens? fuel rest).map (.text (String.ofList s) :: ·)
    else
      let inWord (c : Char) : Bool := !isSpace c && !isMark c
      (tokens? fuel (cs.dropWhile inWord)).map (.word (String.ofList (c :: cs.takeWhile inWord)) :: ·)

def type? (s : String) : Option ColumnType :=
  [ColumnType.text, .integer, .float, .blob].find? fun t => t.sql = s

def column? : List Token → Option Column
  | [.name c, .word type] => (type? type).map (⟨c, ·, false⟩)
  | [.name c, .word type, .word "PRIMARY", .word "KEY"] => (type? type).map (⟨c, ·, true⟩)
  | _ => none

def cell? (c : Column) : List Token → Option Cell
  | [.text s] => some (.text s)
  | [.word s] => some (if s = "NULL" then .null else Cell.ofText c.type s)
  | _ => none

def perform? (d : Database) : List Token → Option Database
  | .word "CREATE" :: .word "TABLE" :: .name t :: .mark '(' :: rest => do
    if rest.getLast? != some (.mark ')') then none
    d.create? t (← (rest.dropLast.splitOn (.mark ',')).mapM column?)
  | .word "INSERT" :: .word "INTO" :: .name t :: .word "VALUES" :: .mark '(' :: rest => do
    if rest.getLast? != some (.mark ')') then none
    let table ← d.table? t
    let literals := rest.dropLast.splitOn (.mark ',')
    if literals.length != table.columns.length then none
    let row ← (table.columns.zip literals).mapM fun l => cell? l.1 l.2
    some (d.update { table with rows := table.rows ++ [row] })
  | _ => none

end Script

/-- What a script begins with. -/
def Database.scriptHeading : List Char := "-- Tables and their rows\n".toList

def Database.script (d : Database) : String :=
  String.ofList (Database.scriptHeading ++ d.tables.flatMap fun t =>
    Script.create t ++ t.rows.flatMap (Script.insert t))

def Database.ofScript? (cs : List Char) : Option Database := do
  let body ← Text.after? Database.scriptHeading cs
  let ts ← Script.tokens? body.length body
  ((ts.splitOn (.mark ';')).filter (!·.isEmpty)).foldlM Script.perform? Database.empty

end Tabulate
