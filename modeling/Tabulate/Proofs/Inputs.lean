import Tabulate.Proofs.Files
import Tabulate.Proofs.Runs

/-! What a run reads. What comes of a file depends on the file and on the declarations that its documents
refer to, and on nothing else that is on the disk. -/
namespace Tabulate

open Effects
open Xml (Document)

/-! ### Results without their errors -/

theorem toOption_bind {ε α β : Type} (x : Except ε α) (f : α → Except ε β) :
    (x >>= f).toOption = x.toOption.bind fun a => (f a).toOption := by
  cases x <;> rfl

theorem toOption_mapError {ε ε' α : Type} (f : ε → ε') (x : Except ε α) :
    (x.mapError f).toOption = x.toOption := by
  cases x <;> rfl

theorem toOption_eq_some {ε α : Type} {x : Except ε α} {a : α} : x.toOption = some a ↔ x = .ok a := by
  cases x <;> simp [Except.toOption]

/-- Two errors come to the same, whatever they say. -/
theorem toOption_of_errors {ε α : Type} {x y : Except ε α} {e e' : ε} (hx : x = .error e) (hy : y = .error e') :
    x.toOption = y.toOption := by
  rw [hx, hy]
  rfl

/-! ### One document -/

namespace FileSystem

theorem toOption_readText (fs : FileSystem) (path : String) :
    (fs.readText path).toOption =
      (fs.content? path).bind fun bytes => (Text.Utf8.decode? bytes).map String.ofList := by
  rw [readText, toOption_bind, content?]
  congr 1
  funext bytes
  cases Text.Utf8.decode? bytes <;> rfl

end FileSystem

namespace Xml

def ParseOptions.dtdFile? (o : ParseOptions) (raw : String) : Option String := do
  let found ← firstFound? externalDoctype? (String.ofList (Text.trimStart raw.toList)).toList
  return dtdFile (← o.dtdPath) (String.ofList found.2.systemId)

variable {fs fs' : FileSystem}

/-- A document is prepared alike where its declarations are the same, or are missing alike. -/
theorem toOption_prepare {o : ParseOptions} {raw : String}
    (h : ∀ file, o.dtdFile? raw = some file → fs.content? file = fs'.content? file) :
    (o.prepare fs raw).toOption = (o.prepare fs' raw).toOption := by
  cases hd : o.dtdPath with
  | none => simp only [ParseOptions.prepare, hd]
  | some directory =>
    simp only [ParseOptions.prepare, hd, inlineDtd]
    cases hf : firstFound? externalDoctype? (String.ofList (Text.trimStart raw.toList)).toList with
    | none => rfl
    | some r =>
      obtain ⟨before, found⟩ := r
      have hfile : o.dtdFile? raw = some (dtdFile directory (String.ofList found.systemId)) := by
        rw [ParseOptions.dtdFile?, hf, hd]
        rfl
      have hread : (fs.readText (dtdFile directory (String.ofList found.systemId))).toOption =
          (fs'.readText (dtdFile directory (String.ofList found.systemId))).toOption := by
        rw [FileSystem.toOption_readText, FileSystem.toOption_readText, h _ hfile]
      dsimp only
      cases hx : fs.readText (dtdFile directory (String.ofList found.systemId)) with
      | error fault =>
        rw [hx] at hread
        cases hy : fs'.readText (dtdFile directory (String.ofList found.systemId)) with
        | error fault' => exact toOption_of_errors rfl rfl
        | ok s' =>
          rw [hy] at hread
          cases hread
      | ok s =>
        rw [hx] at hread
        rw [toOption_eq_some.1 hread.symm]

end Xml

def TabulatorOptions.dtdFile? (o : TabulatorOptions) (text : String) : Option String :=
  (⟨o.dtdPath, o.validate⟩ : Xml.ParseOptions).dtdFile? (o.preprocess text)

namespace Tabulator
variable {t : Tabulator} {fs fs' : FileSystem} {text : String}

theorem toOption_parse
    (h : ∀ file, t.options.dtdFile? text = some file → fs.content? file = fs'.content? file) :
    (t.parse fs text).toOption = (t.parse fs' text).toOption := by
  let o : Xml.ParseOptions := ⟨t.options.dtdPath, t.options.validate⟩
  -- the doctype is checked without a look at any file
  have hrest : ((o.prepare fs (t.options.preprocess text)).mapError malformed >>=
        fun prepared => (Document.parse prepared o).mapError malformed).toOption =
      ((o.prepare fs' (t.options.preprocess text)).mapError malformed >>=
        fun prepared => (Document.parse prepared o).mapError malformed).toOption := by
    rw [toOption_bind, toOption_bind, toOption_mapError, toOption_mapError, Xml.toOption_prepare h]
  unfold parse
  cases t.options.checkDoctype with
  | false =>
    simp only [Bool.false_eq_true, if_false]
    exact hrest
  | true =>
    cases t.schema.rootElement with
    | none => exact toOption_of_errors rfl rfl
    | some root =>
      simp only [if_true]
      cases Xml.checkDoctype text root with
      | ok _ => exact hrest
      | error e => cases e <;> exact toOption_of_errors rfl rfl

/-- A document is dealt with alike where it can be read alike. -/
theorem process_congr (hroot : t.options.checkDoctype = true → t.schema.rootElement.isSome = true)
    (h : (t.parse fs text).toOption = (t.parse fs' text).toOption) (filename : Option String)
    (line : Option Nat) :
    (t.process fs text filename line).result.toOption = (t.process fs' text filename line).result.toOption ∧
      (t.process fs text filename line).next = (t.process fs' text filename line).next := by
  cases hp : t.parse fs text with
  | ok d =>
    have hp' : t.parse fs' text = .ok d := toOption_eq_some.1 (by rw [← h, hp]; rfl)
    have hsame : t.process fs text filename line = t.process fs' text filename line := by
      simp only [process, addDocument, hp, hp']
    exact ⟨by rw [hsame], by rw [hsame]⟩
  | error e =>
    cases hp' : t.parse fs' text with
    | ok d =>
      rw [hp, hp'] at h
      cases h
    | error e' =>
      -- the errors may differ, but what becomes of them does not
      have hfails (fs : FileSystem) (e : DocumentError) (hp : t.parse fs text = .error e) :
          (t.process fs text filename line).result.toOption =
              (if t.options.continueOnError then some () else none) ∧
            (t.process fs text filename line).next = t := by
        have hadd : t.addDocument fs text filename = ⟨.error e, t, []⟩ := by rw [addDocument, hp]
        have hresult : (t.addDocument fs text filename).result = .error e := by rw [hadd]
        obtain ⟨hnext, hresult⟩ := process_of_error line hresult (parse_tolerable hroot hp)
        rw [hnext, hresult, hadd]
        refine ⟨?_, rfl⟩
        split <;> rfl
      obtain ⟨hresult, hnext⟩ := hfails fs e hp
      obtain ⟨hresult', hnext'⟩ := hfails fs' e' hp'
      exact ⟨hresult.trans hresult'.symm, hnext.trans hnext'.symm⟩

end Tabulator

/-! ### All documents of a file -/

namespace Batch
variable {fs fs' : FileSystem} {schema : Schema} {o : TabulatorOptions}

def yield (b : Batch) : Tables × Nat := (b.tables, b.processed)

theorem toOption_ofDocument {d : RawDocument}
    (h : ∀ file, o.dtdFile? d.text = some file → fs.content? file = fs'.content? file) :
    (ofDocument fs schema o d).toOption.map yield = (ofDocument fs' schema o d).toOption.map yield := by
  rw [ofDocument, ofDocument]
  cases ht : Tabulator.ofSchema schema o with
  | error e => exact congrArg (Option.map yield) (toOption_of_errors rfl rfl)
  | ok t =>
    have hroot : o.checkDoctype = true → schema.rootElement.isSome = true := by
      intro hc
      rw [Tabulator.ofSchema, hc] at ht
      cases hr : schema.rootElement with
      | some root => rfl
      | none => simp [hr] at ht
    obtain rfl : { schema, options := o } = t := Except.ok.inj ((ofSchema_eq_ok hroot).symm.trans ht)
    have hone (fs : FileSystem) (step : TabulatorStep) :
        (do step.result; return (⟨step.next.drain.1, 1, step.warnings⟩ : Batch) :
            Except DocumentError Batch).toOption.map yield =
          step.result.toOption.map fun _ => (step.next.tables, 1) := by
      cases step.result <;> rfl
    obtain ⟨hresult, hnext⟩ := Tabulator.process_congr hroot
      (Tabulator.toOption_parse (t := { schema, options := o }) h) (some d.filename) (some d.line)
    exact (hone fs _).trans (by rw [hresult, hnext]; exact (hone fs' _).symm)

theorem toOption_gather_cons (work : RawDocument → Except DocumentError Batch) (d : RawDocument)
    (ds : List RawDocument) :
    (gather work (d :: ds)).toOption.map yield = ((work d).toOption.map yield).bind fun y =>
      ((gather work ds).toOption.map yield).map fun z => (y.1.merge z.1, y.2 + z.2) := by
  cases hd : work d with
  | error e =>
    rw [gather_cons_error hd]
    rfl
  | ok b =>
    rw [gather_cons_ok hd]
    cases gather work ds <;> rfl

theorem toOption_ofDocuments {ds : List RawDocument}
    (h : ∀ d ∈ ds, ∀ file, o.dtdFile? d.text = some file → fs.content? file = fs'.content? file) :
    (ofDocuments fs schema o ds).toOption.map yield = (ofDocuments fs' schema o ds).toOption.map yield := by
  rw [ofDocuments_eq_gather, ofDocuments_eq_gather]
  induction ds with
  | nil => rw [gather_nil, gather_nil]
  | cons d ds ih =>
    rw [toOption_gather_cons, toOption_gather_cons, toOption_ofDocument (h d (by simp)),
      ih fun e he => h e (List.mem_cons_of_mem d he)]

end Batch

theorem RawDocument.toOption_read (fs : FileSystem) (path : String) :
    (read fs path).toOption = (fs.content? path).map fun bytes =>
      split ((FilePath.fileName? path).getD path) (String.ofList (Text.Utf8.decodeLossy bytes)) := by
  rw [read, FileSystem.content?]
  cases fs.read path <;> rfl

/-! ### A run -/

namespace Run

/-- The files that a run reads: its inputs, and the declarations that their documents refer to. -/
def Reads (r : Run) (fs : FileSystem) (file : String) : Prop :=
  file ∈ r.files ∨ ∃ path ∈ r.files, ∃ ds, RawDocument.read fs path = .ok ds ∧
    ∃ d ∈ ds, r.config.options.dtdFile? d.text = some file

/-- A run that is told of no directory for declarations reads its inputs alone. -/
theorem mem_files_of_reads {r : Run} (hdtd : r.config.options.dtdPath = none) {fs : FileSystem} {file : String}
    (h : r.Reads fs file) : file ∈ r.files := by
  rcases h with hfile | ⟨_, _, _, _, d, _, hfile⟩
  · exact hfile
  · obtain ⟨found, -, hfile⟩ := Option.bind_eq_some_iff.1 hfile
    rw [hdtd] at hfile
    cases hfile

/-- All files that a run reads hold the same. -/
def Undisturbed (r : Run) (fs fs' : FileSystem) : Prop :=
  ∀ file, r.Reads fs file → fs'.content? file = fs.content? file

/-- What a file brings in depends on nothing that the run does not read. -/
theorem Undisturbed.toOption_batchOf {r : Run} {fs fs' : FileSystem} (h : r.Undisturbed fs fs')
    {path : String} (hp : path ∈ r.files) :
    (r.batchOf fs' path).toOption.map Batch.yield = (r.batchOf fs path).toOption.map Batch.yield := by
  have hread : (RawDocument.read fs' path).toOption = (RawDocument.read fs path).toOption := by
    rw [RawDocument.toOption_read, RawDocument.toOption_read, h path (.inl hp)]
  rw [batchOf, batchOf, toOption_bind, toOption_bind, toOption_mapError, toOption_mapError, hread]
  cases hds : RawDocument.read fs path with
  | error e => simp only [Except.toOption, Option.bind_none]
  | ok ds =>
    show ((Batch.ofDocuments fs' r.schema r.config.options ds).mapError RunError.document).toOption.map _ =
      ((Batch.ofDocuments fs r.schema r.config.options ds).mapError RunError.document).toOption.map _
    rw [toOption_mapError, toOption_mapError]
    exact Batch.toOption_ofDocuments fun d hd file hfile => h file (.inr ⟨path, hp, ds, hds, d, hd, hfile⟩)

end Run

end Tabulate
