import Tabulate.Csv.Writer
import Tabulate.Database.Store
import Tabulate.Input.Basic
import Tabulate.Number
import Tabulate.Record.Basic
import Tabulate.Record.Tabulator

/-! A run from input files to an output. The files are taken one after another, and the records of one are
written before the next is read. The documents of a file are read each on its own, as several workers may do
at once, and their tables are merged in the order of the documents. -/
namespace Tabulate

inductive RunError where
  | input (e : InputError)
  | schema (e : SchemaError)
  | document (e : DocumentError)
  | csv (e : Csv.Error)
  | store (e : StoreError)
deriving DecidableEq, Repr

def RunError.message : RunError → String
  | input e => e.message
  | schema e => e.message
  | document e => e.message
  | csv e => e.message
  | store e => e.message

inductive RunWarning where
  | document (w : DocumentWarning)
  | store (w : StoreWarning)
  | noInput
  | noRecords
  | appending (path : String)
deriving DecidableEq, Repr

def RunWarning.message : RunWarning → String
  | document w => w.message
  | store w => w.message
  | noInput => "No input files to process!"
  | noRecords => "No records found! (config file error?)"
  | appending path => "Sqlite database " ++ path ++ " exists; records will be appended."

def RunWarning.ofFiles (files : List String) : List RunWarning :=
  if files.isEmpty then [.noInput] else []

def workerCount (wanted : Nat) : Nat := max wanted 1

structure Batch where
  tables : Tables := .empty
  processed : Nat := 0
  warnings : List DocumentWarning := []

namespace Batch

def ofDocument (fs : FileSystem) (schema : Schema) (o : TabulatorOptions) (d : RawDocument) :
    Except DocumentError Batch := do
  let t ← Tabulator.ofSchema schema o
  let step := t.process fs d.text (some d.filename) (some d.line)
  step.result
  return ⟨step.next.drain.1, 1, step.warnings⟩

def append (a b : Batch) : Batch :=
  ⟨a.tables.merge b.tables, a.processed + b.processed, a.warnings ++ b.warnings⟩

/-- What all documents bring in, or the error of the first that fails. -/
def ofDocuments (fs : FileSystem) (schema : Schema) (o : TabulatorOptions) (ds : List RawDocument) :
    Except DocumentError Batch :=
  (ds.mapM (ofDocument fs schema o)).map fun bs => bs.foldl append {}

end Batch

inductive OutputTarget where
  | csv (directory : String)
  | sqlite (path : String)
deriving DecidableEq, Repr

namespace OutputTarget

def databaseName : String := "db.sqlite"

def sqliteIn (directory : String) : OutputTarget := .sqlite (FilePath.join directory databaseName)

def location : OutputTarget → String
  | csv directory => directory
  | sqlite path => path

end OutputTarget

structure RunConfig where
  inputs : List String
  recurse : Bool
  output : OutputTarget
  options : TabulatorOptions
  csv : Csv.Format
  maxVars : Nat

structure FileSummary where
  path : String
  documents : Nat
  records : Dictionary Nat
deriving DecidableEq

def FileSummary.recordCount (s : FileSummary) : Nat := total s.records.values

structure RunSummary where
  files : List FileSummary
deriving DecidableEq

namespace RunSummary

def documents (s : RunSummary) : Nat := total (s.files.map FileSummary.documents)

def records (s : RunSummary) : Dictionary Nat :=
  (s.files.flatMap fun f => f.records.entries).foldl
    (fun d e => d.insert e.1 ((d.get? e.1).getD 0 + e.2)) Dictionary.empty

end RunSummary

structure Scene where
  files : FileSystem
  warnings : List RunWarning := []

abbrev Running := EStateM RunError Scene

inductive Sink where
  | csv (w : Csv.Writer)
  | sqlite (s : Store)

namespace Scene

def warn (ws : List RunWarning) : Running Unit :=
  modify fun s => { s with warnings := s.warnings ++ ws }

def write (f : EStateM Csv.Error FileSystem α) : Running α := fun s =>
  match f s.files with
  | .ok a files => .ok a { s with files }
  | .error e files => .error (.csv e) { s with files }

def use (store : Store) (f : Storing α) : Running (α × Store) := fun s =>
  -- a store is saved even if what is done to it fails
  let done (t : Store) : Scene := ⟨t.save s.files, s.warnings ++ t.warnings.map .store⟩
  match f { store with warnings := [] } with
  | .ok a t => .ok (a, t) (done t)
  | .error e t => .error (.store e) (done t)

end Scene

structure Run where
  schema : Schema
  config : RunConfig
  layouts : List TableLayout
  files : List String
  sink : Sink

namespace Run

def openStore (c : StoreConfig) : Running Store := fun s =>
  match Store.openAt c s.files with
  | (.ok store, files) => .ok store { s with files }
  | (.error e, files) => .error (.store e) { s with files }

def openSink (c : RunConfig) (ls : List TableLayout) : Running Sink := do
  match c.output with
  | .csv directory => return .csv (← Scene.write (Csv.Writer.openIn directory c.csv))
  | .sqlite path =>
    if (← get).files.exists? path then Scene.warn [.appending path]
    let store ← openStore ⟨path, c.maxVars⟩
    let (_, store) ← Scene.use store (Store.prepare ls)
    return .sqlite store

def start (schema : Schema) (c : RunConfig) : Running Run := do
  let layouts ← MonadExcept.ofExcept (schema.layouts.mapError .schema)
  let _ ← MonadExcept.ofExcept ((Tabulator.ofSchema schema c.options).mapError .document)
  let files ← MonadExcept.ofExcept (((← get).files.discover c.inputs c.recurse).mapError .input)
  Scene.warn (RunWarning.ofFiles files)
  return ⟨schema, c, layouts, files, ← openSink c layouts⟩

def flush (r : Run) (t : Tables) : Sink → Running Sink
  | .csv w => do
    let _ ← Scene.write (w.writeTables r.layouts t)
    return .csv w
  | .sqlite store => do
    let (_, store) ← Scene.use store (Store.writeTables t)
    return .sqlite store

def convertFile (r : Run) (sink : Sink) (path : String) : Running (FileSummary × Sink) := do
  let files := (← get).files
  let documents ← MonadExcept.ofExcept ((RawDocument.read files path).mapError .input)
  let batch ← MonadExcept.ofExcept
    ((Batch.ofDocuments files r.schema r.config.options documents).mapError .document)
  Scene.warn (batch.warnings.map .document)
  let records := Dictionary.ofList (batch.tables.entries.map fun e => (e.1, e.2.length))
  let summary : FileSummary := ⟨path, batch.processed, records⟩
  if batch.tables.recordCount = 0 then
    Scene.warn [.noRecords]
    return (summary, sink)
  else return (summary, ← r.flush batch.tables sink)

def convertFiles (r : Run) : Sink → List String → Running (List FileSummary × Sink)
  | sink, [] => return ([], sink)
  | sink, path :: paths => do
    let (summary, sink) ← r.convertFile sink path
    let (summaries, sink) ← r.convertFiles sink paths
    return (summary :: summaries, sink)

def convert (r : Run) : Running RunSummary := do
  let (summaries, _) ← r.convertFiles r.sink r.files
  return ⟨summaries⟩

end Run

end Tabulate
