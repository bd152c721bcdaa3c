import Tabulate.Files.System
import Tabulate.Number
import Tabulate.Record.Basic
import Tabulate.Schema.Layout
import Tabulate.Text.Basic
import Tabulate.Text.Utf8

/-! CSV files: the text of records, and a directory with a file for every table. A field is quoted if it holds
the delimiter, the quote or part of a line end, and quotes inside it are doubled. A file that is made begins
with a header, and one that is there already is appended to. -/
namespace Tabulate.Csv

inductive NullText where
  | empty
  | word
  | backslash
  | custom (text : String)
deriving DecidableEq, Repr

def NullText.text : NullText → String
  | empty => ""
  | word => "NULL"
  | backslash => "\\N"
  | custom text => text

def NullText.ofText : String → NullText
  | "" => empty
  | "NULL" => word
  | "\\N" => backslash
  | text => custom text

inductive LineEnd where
  | crlf
  | lf
deriving DecidableEq, Repr

def LineEnd.chars : LineEnd → List Char
  | crlf => ['\r', '\n']
  | lf => ['\n']

structure Format where
  delimiter : Char := ','
  quote : Char := '"'
  null : NullText := .empty
  lineEnd : LineEnd := .crlf
deriving DecidableEq, Repr

def asciiByte? (c : Char) : Option Nat := if c.toNat < 0x80 then some c.toNat else none

namespace Format

def needsQuotes (f : Format) (field : List Char) : Bool :=
  field.any fun c => c = f.delimiter || c = f.quote || c = '\r' || c = '\n'

def quoted (f : Format) (field : List Char) : List Char :=
  f.quote :: field.flatMap (fun c => if c = f.quote then [c, c] else [c]) ++ [f.quote]

def field (f : Format) (cs : List Char) : List Char := if f.needsQuotes cs then f.quoted cs else cs

def record (f : Format) (fields : List String) : List Char :=
  let line := [f.delimiter].intercalate (fields.map fun s => f.field s.toList)
  (if line.isEmpty then f.quoted [] else line) ++ f.lineEnd.chars

end Format

inductive Error where
  | delimiter (c : Char)
  | quote (c : Char)
  | io (path : String) (fault : IoFault)
  | unknownTable (table : String)
deriving DecidableEq, Repr

def Error.message : Error → String
  | delimiter c => "Configuration error: delimiter " ++ Text.quoteChar c ++ " is not ASCII"
  | quote c => "Configuration error: quote character " ++ Text.quoteChar c ++ " is not ASCII"
  | io path fault => "IO error for " ++ path ++ ": " ++ fault.message
  | unknownTable table => "No column layout for table '" ++ table ++ "'"

abbrev Writing := EStateM Error FileSystem

structure Writer where
  directory : String
  format : Format

namespace Writer

def openIn (directory : String) (format : Format) : Writing Writer := fun fs =>
  if (asciiByte? format.delimiter).isNone then .error (.delimiter format.delimiter) fs
  else if (asciiByte? format.quote).isNone then .error (.quote format.quote) fs
  else match fs.makeDirectories directory with
    | (fs, .ok ()) => .ok ⟨directory, format⟩ fs
    | (fs, .error fault) => .error (.io directory fault) fs

def pathFor (w : Writer) (table : String) : String := FilePath.join w.directory (table ++ ".csv")

def fieldsOf (w : Writer) (l : TableLayout) (r : Record) : List String :=
  l.columns.map fun c => ((r.get? c).join).getD w.format.null.text

def writeTable (w : Writer) (l : TableLayout) (rs : List Record) : Writing Nat := fun fs =>
  let path := w.pathFor l.name
  let header := if fs.exists? path then [] else [l.columns]
  let lines := (header ++ rs.map (w.fieldsOf l)).flatMap w.format.record
  match fs.append path (Text.Utf8.encode lines) with
  | .ok fs => .ok rs.length fs
  | .error fault => .error (.io path fault) fs

def writeTables (w : Writer) (ls : List TableLayout) (t : Tables) : Writing Nat := do
  let counts ← t.entries.mapM fun (table, rs) =>
    match ls.find? (·.name = table) with
    | some l => w.writeTable l rs
    | none => throw (.unknownTable table)
  return total counts

end Writer

end Tabulate.Csv
