import Tabulate.Proofs.Tables
import Tabulate.Proofs.Tolerance
import Tabulate.Run.Basic

/-! Batches of documents. What a list of documents brings in is what its parts bring in, one after the
other; where errors are skipped, it is what those documents bring in that do not fail. -/
namespace Tabulate.Batch

open Effects

@[simp] theorem append_empty (b : Batch) : b.append {} = b := by
  simp [append]

@[simp] theorem empty_append (b : Batch) : append {} b = b := by
  simp [append]

theorem append_assoc (a b c : Batch) : (a.append b).append c = a.append (b.append c) := by
  simp [append, Tables.merge_assoc, Nat.add_assoc]

theorem foldl_append (bs : List Batch) (b : Batch) :
    bs.foldl append b = b.append (bs.foldl append {}) := by
  induction bs generalizing b with
  | nil => simp
  | cons c bs ih => rw [List.foldl_cons, List.foldl_cons, ih, ih (append {} c), empty_append, append_assoc]

def gather (work : RawDocument → Except DocumentError Batch) (ds : List RawDocument) :
    Except DocumentError Batch :=
  (ds.mapM work).map fun bs => bs.foldl append {}

section Gather
variable {work : RawDocument → Except DocumentError Batch} {d : RawDocument} {ds : List RawDocument}

@[simp] theorem gather_nil : gather work [] = .ok {} := rfl

theorem gather_cons_ok {b : Batch} (h : work d = .ok b) :
    gather work (d :: ds) = (gather work ds).map b.append := by
  rw [gather, gather, List.mapM_cons, h]
  cases hds : ds.mapM work with
  | error e => simp [bind, Except.bind, Except.map]
  | ok bs => simp [bind, pure, Except.bind, Except.pure, Except.map, foldl_append bs b]

theorem gather_cons_error {e : DocumentError} (h : work d = .error e) :
    gather work (d :: ds) = .error e := by
  rw [gather, List.mapM_cons, h]
  rfl

end Gather

theorem ofDocuments_eq_gather (fs : FileSystem) (schema : Schema) (o : TabulatorOptions)
    (ds : List RawDocument) : ofDocuments fs schema o ds = gather (ofDocument fs schema o) ds := rfl

section Documents
variable (fs : FileSystem) (schema : Schema) (o : TabulatorOptions)

/-- Whether a document fails where errors are not skipped. -/
def fails (d : RawDocument) : Bool :=
  !(ofDocument fs schema { o with continueOnError := false } d).isOk

variable {fs schema o} {d : RawDocument}

theorem ofSchema_eq_ok {o : TabulatorOptions} (hroot : o.checkDoctype = true → schema.rootElement.isSome = true) :
    Tabulator.ofSchema schema o = .ok { schema, options := o } := by
  have hcheck : (o.checkDoctype && schema.rootElement.isNone) = false := by
    cases hc : o.checkDoctype with
    | false => rfl
    | true => simpa using hroot hc
  rw [Tabulator.ofSchema, hcheck]
  rfl

end Documents

end Tabulate.Batch
