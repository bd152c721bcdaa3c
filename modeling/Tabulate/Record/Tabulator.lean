import Tabulate.Record.Walk
import Tabulate.Xml.Document

/-! Gathering the records of one document after another. A document that fails adds no records and
gives out no keys, but names to read paths by that were taken from it stay. -/
namespace Tabulate

open Xml (Document Namespaces)

structure TabulatorOptions where
  checkDoctype : Bool := false
  validate : Bool := false
  dtdPath : Option String := none
  continueOnError : Bool := false
  refreshNamespaces : Bool := false
  preprocess : String → String := id

structure Tabulator where
  schema : Schema
  options : TabulatorOptions
  namespaces : Option Namespaces := none
  counters : KeyCounters := .empty
  tables : Tables := .empty

structure TabulatorStep where
  result : Except DocumentError Unit
  next : Tabulator
  warnings : List DocumentWarning

namespace Tabulator

def ofSchema (schema : Schema) (options : TabulatorOptions) : Except DocumentError Tabulator :=
  if options.checkDoctype && schema.rootElement.isNone then .error .noRootElement
  else .ok { schema, options }

def malformed (e : Xml.Error) : DocumentError := .document (.malformed e.message) {}

def parse (t : Tabulator) (fs : FileSystem) (text : String) : Except DocumentError Document := do
  if t.options.checkDoctype then
    match t.schema.rootElement with
    | none => throw .noRootElement
    | some root =>
      match Xml.checkDoctype text root with
      | .ok () => pure ()
      | .error (.wrongDoctype declaration) => throw (.document (.wrongDoctype declaration) {})
      | .error _ => throw (.document .noDoctype {})
  let o : Xml.ParseOptions := ⟨t.options.dtdPath, t.options.validate⟩
  let prepared ← (o.prepare fs (t.options.preprocess text)).mapError malformed
  (Document.parse prepared o).mapError malformed

def namespacesFor (t : Tabulator) (d : Document) : Namespaces :=
  if t.options.refreshNamespaces then Namespaces.ofDocument d
  else t.namespaces.getD (Namespaces.ofDocument d)

/-- The key of the first match of the first entity, if there is one. -/
def recordId? (s : Source) (schema : Schema) : Option String := do
  match schema.paths with
  | (path, .entity e _) :: _ =>
    let ls ← (s.document.resolve s.namespaces path s.document.element).toOption
    let key ← (← (s.explicitKey e (← ls.head?)).toOption)
    if key.isEmpty then none else some key
  | _ => none

def walk (s : Source) (schema : Schema) : Walk Unit :=
  schema.paths.forM fun p => s.walkPath s.document.element p.1 p.2

def addDocument (t : Tabulator) (fs : FileSystem) (text : String) (filename : Option String) : TabulatorStep :=
  match t.parse fs text with
  | .error e => ⟨.error e, t, []⟩
  | .ok d =>
    let m := t.namespacesFor d
    let named := { t with namespaces := some m }
    let source : Source := ⟨d, m, filename⟩
    -- the names stay whether the walk comes to its end or not, records and keys only if it does
    match walk source t.schema { counters := t.counters } with
    | .ok () h =>
      ⟨.ok (), { named with counters := h.counters, tables := t.tables.merge h.tables }, h.warnings⟩
    | .error e h => ⟨.error (e.withRecordId (recordId? source t.schema)), named, h.warnings⟩

/-- Take in a document and say where a failing one came from. If the run is to continue, a failure
becomes a warning. -/
def process (t : Tabulator) (fs : FileSystem) (text : String) (filename : Option String)
    (line : Option Nat) : TabulatorStep :=
  let step := t.addDocument fs text filename
  match step.result with
  | .ok () => step
  | .error e =>
    let e := e.withLocation filename line
    if t.options.continueOnError && e.isTolerable then
      ⟨.ok (), step.next, step.warnings ++ [.skipped e]⟩
    else ⟨.error e, step.next, step.warnings⟩

def drain (t : Tabulator) : Tables × Tabulator := (t.tables, { t with tables := .empty })

end Tabulator

end Tabulate
