import Tabulate.Number
import Tabulate.Path.Follow
import Tabulate.Schema.Basic
import Tabulate.Text.Basic
import Tabulate.Xml.Document

/-! Records, tables of them, how the matches of a path fill a column, and why a document gives no records. The
key of a record is the texts of an entity's key paths, or a number below the key of the record around it. -/
namespace Tabulate

abbrev Record := Dictionary (Option String)

abbrev Tables := Dictionary (List Record)

namespace Tables

def empty : Tables := Dictionary.empty

def append (t : Tables) (table : String) (rs : List Record) : Tables :=
  t.insert table ((t.get? table).getD [] ++ rs)

def merge (t more : Tables) : Tables := more.entries.foldl (fun t e => t.append e.1 e.2) t

def recordCount (t : Tables) : Nat := total (t.values.map List.length)

end Tables

namespace Record

def empty : Record := Dictionary.empty

def join (column separator : String) (r : Record) (text : String) : Record :=
  match r.get? column with
  | some (some held) => r.insert column (some (if held.isEmpty then text else held ++ separator ++ text))
  | _ => r.insert column (some text)

def fill (r : Record) (column : String) (rule : FieldRule) (texts : List String) : Record :=
  match rule, texts.getLast? with
  | _, none => r
  | .plain, some text => r.insert column (some text)
  | .joiner separator, some _ => texts.foldl (join column separator) r
  | .enumMap table, some text => r.insert column (table.get? text)
  | .enumType constant, some _ => r.insert column (some constant)

end Record

structure DocumentContext where
  filename : Option String := none
  line : Option Nat := none
  recordId : Option String := none
deriving DecidableEq, Repr

def DocumentContext.text (c : DocumentContext) : String :=
  (c.recordId.map (" with ID " ++ ·)).getD "" ++
    (c.line.map (" starting at line " ++ toString ·)).getD "" ++
    (c.filename.map (" in file " ++ ·)).getD ""

inductive DocumentFault where
  | wrongDoctype (declaration : String)
  | noDoctype
  | malformed (text : String)
  | ambiguousKey (path : String) (found : Nat)
  | invalidNode (path description : String)
deriving DecidableEq, Repr

inductive DocumentError where
  | document (fault : DocumentFault) (context : DocumentContext)
  | noRootElement
deriving DecidableEq, Repr

namespace DocumentError

def message : DocumentError → String
  | document (.wrongDoctype declaration) c => "Unexpected XML document" ++ c.text ++ ": " ++ declaration
  | document .noDoctype c => "Document" ++ c.text ++ " has no DOCTYPE"
  | document (.malformed text) c => "Unable to parse XML document" ++ c.text ++ ": " ++ text
  | document (.ambiguousKey path found) c =>
    "Unable to parse document" ++ c.text ++ ": " ++ toString found ++
      " elements found for <primary_key> component " ++ path
  | document (.invalidNode path description) c =>
    "Invalid configuration for \"" ++ path ++ "\"" ++ c.text ++ ":\n" ++ description
  | noRootElement => "Doctype checking is enabled but the configuration has no <root_element>"

def context? : DocumentError → Option DocumentContext
  | document _ c => some c
  | noRootElement => none

def withLocation (filename : Option String) (line : Option Nat) : DocumentError → DocumentError
  | document fault c => document fault { c with filename, line }
  | noRootElement => noRootElement

def withRecordId (recordId : Option String) : DocumentError → DocumentError
  | document fault c => document fault { c with recordId := c.recordId.or recordId }
  | noRootElement => noRootElement

/-- Whether the run may go on with the next document. -/
def isTolerable : DocumentError → Bool
  | document .. => true
  | noRootElement => false

end DocumentError

inductive DocumentWarning where
  | severalMatches (path : String) (texts : List String)
  | skipped (e : DocumentError)
deriving DecidableEq, Repr

def DocumentWarning.message : DocumentWarning → String
  | severalMatches path texts =>
    "Multiple elements found for " ++ path ++ "! Only the last will be kept! Should your config file " ++
      "include a joiner, or new entity definition?\n\n" ++ "\n".intercalate (texts.map ("- " ++ ·))
  | skipped e => e.message

structure KeyCounters where
  counts : Dictionary (Dictionary Nat)
deriving DecidableEq

namespace KeyCounters

def empty : KeyCounters := ⟨Dictionary.empty⟩

def count (k : KeyCounters) (entity parentKey : String) : Nat :=
  ((k.counts.get? entity).bind (·.get? parentKey)).getD 0

def next (k : KeyCounters) (entity parentKey : String) : Nat × KeyCounters :=
  let n := k.count entity parentKey
  (n, ⟨k.counts.insert entity (((k.counts.get? entity).getD Dictionary.empty).insert parentKey (n + 1))⟩)

end KeyCounters

def noParentKey : String := "None"

def syntheticKey (parentKey : String) (n : Nat) : String := parentKey ++ "_" ++ toString n

namespace Xml.Document

def text (d : Document) (l : Location) : String := Text.normalize (d.stringValue l)

def keyPart (d : Document) (m : Namespaces) (l : Location) (path : String) :
    Except DocumentError String :=
  match d.resolve m path l with
  | .error e => .error (.document (.invalidNode path e.message) {})
  | .ok [found] => .ok (d.text found)
  | .ok ls => .error (.document (.ambiguousKey (m.qualify path) ls.length) {})

def primaryKey (d : Document) (m : Namespaces) (key : PrimaryKey) (l : Location) :
    Except DocumentError String :=
  (key.components.mapM (d.keyPart m l)).map ("-".intercalate ·)

end Xml.Document

end Tabulate
