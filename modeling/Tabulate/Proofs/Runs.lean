import Tabulate.Proofs.Batches
import Tabulate.Proofs.Coverage
import Tabulate.Proofs.Outputs
import Tabulate.Proofs.Skipping

/-! What a run leaves in its output. Files are passed one after the other, and each brings in the rows of
its documents or, where it fails, nothing. -/
namespace Tabulate

open Effects
open TableLayout (named?)

/-! ### What a file brings in -/

theorem Tables.LaidOut.merge {ls : List TableLayout} {t more : Tables} (h : t.LaidOut ls)
    (h' : more.LaidOut ls) : (t.merge more).LaidOut ls := by
  intro table rs hrs
  rw [Tables.get?_merge] at hrs
  cases hm : more.get? table with
  | none =>
    rw [hm] at hrs
    exact h table rs hrs
  | some rs' =>
    rw [hm] at hrs
    obtain ⟨hne, hnamed⟩ := h' table rs' hm
    obtain rfl := Option.some.inj hrs
    exact ⟨by simp [hne], hnamed⟩

theorem Harvested.laidOut {schema : Schema} {ls : List TableLayout} (hl : schema.layouts = .ok ls)
    {t : Tables} (ht : Harvested schema t) : t.LaidOut ls := by
  intro table rs hrs
  have hnamed := named?_of_harvested hl ht ((Dictionary.mem_keys_iff ..).2 ⟨rs, hrs⟩)
  obtain ⟨s, h₀, h, h₀t, hw, rfl⟩ := ht
  obtain ⟨ms, htables, -⟩ := walk_eq_makings hw
  rw [htables, h₀t, Tables.empty_merge] at hrs
  exact ⟨(Making.eq_rows_of_get?_tables hrs).1, hnamed⟩

namespace Batch
variable {fs : FileSystem} {schema : Schema} {o : TabulatorOptions}

/-- A document brings in the tables of a walk, or none. -/
theorem tables_ofDocument {d : RawDocument} {b : Batch} (h : ofDocument fs schema o d = .ok b) :
    b.tables = .empty ∨ Harvested schema b.tables := by
  rw [ofDocument, Tabulator.ofSchema] at h
  split at h
  · cases h
  · let t : Tabulator := { schema, options := o }
    let f : Feed := ⟨d.text, some d.filename, some d.line⟩
    have htables : b.tables = (t.feed fs f).next.tables := by
      simp only [bind, Except.bind] at h
      split at h
      · cases h
      · cases h
        rfl
    rw [htables]
    rcases t.feed_cases fs f with ⟨-, -, hnext⟩ | ⟨doc, harvest, e, -, -, -, hnext⟩ |
      ⟨doc, harvest, -, -, hwalk, hnext⟩
    · rw [hnext]
      exact .inl rfl
    · rw [hnext]
      exact .inl rfl
    · rw [hnext]
      exact .inr ⟨_, _, harvest, rfl, hwalk, (Tables.empty_merge _).symm⟩

theorem laidOut_gather {ls : List TableLayout} {work : RawDocument → Except DocumentError Batch}
    {ds : List RawDocument} (hwork : ∀ d ∈ ds, ∀ b, work d = .ok b → b.tables.LaidOut ls) {b : Batch}
    (h : gather work ds = .ok b) : b.tables.LaidOut ls := by
  induction ds generalizing b with
  | nil =>
    cases h
    exact nofun
  | cons d ds ih =>
    cases hd : work d with
    | error e =>
      rw [gather_cons_error hd] at h
      cases h
    | ok first =>
      rw [gather_cons_ok hd] at h
      cases hds : gather work ds with
      | error e =>
        rw [hds] at h
        cases h
      | ok rest =>
        rw [hds] at h
        cases h
        have hfirst := hwork d (by simp) first hd
        exact hfirst.merge (ih (fun e he => hwork e (List.mem_cons_of_mem d he)) hds)

/-- Whatever documents bring in has records and layouts. -/
theorem laidOut_ofDocuments {ls : List TableLayout} (hl : schema.layouts = .ok ls) {ds : List RawDocument}
    {b : Batch} (h : ofDocuments fs schema o ds = .ok b) : b.tables.LaidOut ls := by
  refine laidOut_gather (fun d _ b hb => ?_) h
  rcases tables_ofDocument hb with hempty | hharvest
  · rw [hempty]
    exact nofun
  · exact hharvest.laidOut hl

end Batch

namespace Run

def batchOf (r : Run) (fs : FileSystem) (path : String) : Except RunError Batch := do
  let documents ← (RawDocument.read fs path).mapError .input
  (Batch.ofDocuments fs r.schema r.config.options documents).mapError .document

theorem laidOut_batchOf {r : Run} (hl : r.schema.layouts = .ok r.layouts) {fs : FileSystem} {path : String}
    {b : Batch} (h : r.batchOf fs path = .ok b) : b.tables.LaidOut r.layouts := by
  obtain ⟨documents, -, h⟩ := except_bind_eq_ok.1 h
  exact Batch.laidOut_ofDocuments hl (mapError_eq_ok.1 h)

end Run

/-! ### One file -/

def FileSummary.ofBatch (path : String) (b : Batch) : FileSummary :=
  ⟨path, b.processed, Dictionary.ofList (b.tables.entries.map fun e => (e.1, e.2.length))⟩

theorem total_eq_zero {ns : List Nat} : total ns = 0 ↔ ∀ n ∈ ns, n = 0 := by
  induction ns with
  | nil => simp [total]
  | cons n ns ih => simp [total, ih]

theorem Tables.rows_of_recordCount {t : Tables} (h : t.recordCount = 0) (table : String) :
    t.rows table = [] := by
  rw [rows]
  cases hrs : t.get? table with
  | none => rfl
  | some rs =>
    have hmem : rs.length ∈ t.values.map List.length :=
      List.mem_map.2 ⟨rs, List.mem_map.2 ⟨(table, rs), (t.mem_entries_iff ..).2 hrs, rfl⟩, rfl⟩
    exact List.length_eq_zero_iff.1 (total_eq_zero.1 h rs.length hmem)

namespace Run
variable {r : Run} {sink sink' : Sink} {s s' : Scene} {path : String}

def finishFile (r : Run) (sink : Sink) (path : String) (b : Batch) : Running (FileSummary × Sink) := do
  Scene.warn (b.warnings.map .document)
  if b.tables.recordCount = 0 then
    Scene.warn [.noRecords]
    return (.ofBatch path b, sink)
  else return (.ofBatch path b, ← r.flush b.tables sink)

/-- A file is read as a whole before anything is done with it. -/
theorem convertFile_eq (r : Run) (sink : Sink) (path : String) (s : Scene) :
    r.convertFile sink path s =
      match r.batchOf s.files path with
      | .ok b => r.finishFile sink path b s
      | .error e => .error e s := by
  show ((MonadExcept.ofExcept ((RawDocument.read s.files path).mapError RunError.input) : Running _) >>=
    _) s = _
  rw [batchOf]
  cases (RawDocument.read s.files path).mapError RunError.input with
  | error e => rfl
  | ok documents =>
    show ((MonadExcept.ofExcept ((Batch.ofDocuments s.files r.schema r.config.options documents).mapError
      RunError.document) : Running _) >>= _) s = _
    simp only [bind, Except.bind]
    cases (Batch.ofDocuments s.files r.schema r.config.options documents).mapError RunError.document with
    | error e => rfl
    | ok b => rfl

/-- A file that is finished has been summed up, and it has been flushed unless it has no records. -/
theorem finishFile_eq_ok {b : Batch} {summary : FileSummary}
    (h : r.finishFile sink path b s = .ok (summary, sink') s') : summary = .ofBatch path b ∧
      (b.tables.recordCount = 0 ∧ sink' = sink ∧ s'.files = s.files ∨
        ∃ s₁, s₁.files = s.files ∧ r.flush b.tables sink s₁ = .ok sink' s') := by
  obtain ⟨_, s₁, hwarn, h⟩ := bind_eq_ok.1 h
  have hfiles := Scene.files_of_warn hwarn
  split at h
  · next hcount =>
    obtain ⟨_, s₂, hempty, hp⟩ := bind_eq_ok.1 h
    obtain ⟨hpair, rfl⟩ := pure_eq_ok.1 hp
    cases hpair
    exact ⟨rfl, .inl ⟨hcount, rfl, (Scene.files_of_warn hempty).trans hfiles⟩⟩
  · obtain ⟨sink₁, s₂, hflush, hp⟩ := bind_eq_ok.1 h
    obtain ⟨hpair, rfl⟩ := pure_eq_ok.1 hp
    cases hpair
    exact ⟨rfl, .inr ⟨s₁, hfiles, hflush⟩⟩

theorem finishFile_eq_error {b : Batch} {e : RunError} (h : r.finishFile sink path b s = .error e s') :
    ∃ s₁, s₁.files = s.files ∧ r.flush b.tables sink s₁ = .error e s' := by
  rcases bind_eq_error.1 h with hwarn | ⟨_, s₁, hwarn, h⟩
  · cases hwarn
  · have hfiles := Scene.files_of_warn hwarn
    split at h
    · rcases bind_eq_error.1 h with hempty | ⟨_, s₂, -, hp⟩
      · cases hempty
      · cases hp
    · rcases bind_eq_error.1 h with hflush | ⟨_, s₂, -, hp⟩
      · exact ⟨s₁, hfiles, hflush⟩
      · cases hp

end Run

/-! ### Summaries -/

def countIn (es : List (String × Nat)) (table : String) : Nat :=
  total ((es.filter fun e => e.1 = table).map (·.2))

theorem countIn_append (es fs : List (String × Nat)) (table : String) :
    countIn (es ++ fs) table = countIn es table + countIn fs table := by
  simp [countIn, total_append]

theorem countIn_cons (e : String × Nat) (es : List (String × Nat)) (table : String) :
    countIn (e :: es) table = (if e.1 = table then e.2 else 0) + countIn es table := by
  by_cases he : e.1 = table <;> simp [countIn, he, total]

/-- Names that are all different count once at most. -/
theorem countIn_eq_lookup {es : List (String × Nat)} (hn : (es.map (·.1)).Nodup) (table : String) :
    countIn es table = (es.lookup table).getD 0 := by
  induction es with
  | nil => rfl
  | cons e es ih =>
    obtain ⟨he, hn⟩ := List.nodup_cons.1 hn
    rw [countIn_cons, Dictionary.lookup_cons, ih hn]
    by_cases ht : table = e.1
    · simp [ht, Dictionary.lookup_eq_none he]
    · simp [ht, Ne.symm ht]

theorem get?_foldl_add (es : List (String × Nat)) (d : Dictionary Nat) (table : String) :
    ((es.foldl (fun d e => d.insert e.1 ((d.get? e.1).getD 0 + e.2)) d).get? table).getD 0 =
      (d.get? table).getD 0 + countIn es table := by
  induction es generalizing d with
  | nil => rfl
  | cons e es ih =>
    rw [List.foldl_cons, ih, countIn_cons, Dictionary.get?_insert]
    by_cases he : table = e.1
    · simp [he, Nat.add_assoc]
    · simp [he, Ne.symm he]

/-- A file's summary counts the records of its batch. -/
theorem FileSummary.get?_records (path : String) (b : Batch) (table : String) :
    ((FileSummary.ofBatch path b).records.get? table).getD 0 = (b.tables.rows table).length := by
  have hkeys : ((b.tables.entries.map fun e => (e.1, e.2.length)).map (·.1)).Nodup := by
    rw [List.map_map]
    exact b.tables.nodup_keys
  have hlookup (es : List (String × List Record)) :
      (es.map fun e => (e.1, e.2.length)).lookup table = (es.lookup table).map List.length := by
    induction es with
    | nil => rfl
    | cons e es ih =>
      rw [List.map_cons, Dictionary.lookup_cons, Dictionary.lookup_cons, ih]
      split <;> rfl
  rw [FileSummary.ofBatch, Dictionary.get?_ofList hkeys, hlookup]
  show ((b.tables.get? table).map List.length).getD 0 = ((b.tables.get? table).getD []).length
  cases b.tables.get? table <;> rfl

/-! ### File after file -/

def rowsOf (fed : List (String × Batch)) (table : String) : List Record :=
  fed.flatMap fun f => f.2.tables.rows table

namespace Run

/-- Files are passed with their batches, each read as the files before it have left the scene. -/
inductive Passes (r : Run) : List (String × Batch) → Sink → Scene → Sink → Scene → Prop
  | nil (sink : Sink) (s : Scene) : Passes r [] sink s sink s
  | cons {path : String} {b : Batch} {fed : List (String × Batch)} {sink sink₁ sink₂ : Sink}
      {s s₁ s₂ : Scene} (read : r.batchOf s.files path = .ok b)
      (done : r.convertFile sink path s = .ok (.ofBatch path b, sink₁) s₁)
      (rest : Passes r fed sink₁ s₁ sink₂ s₂) : Passes r ((path, b) :: fed) sink s sink₂ s₂

section Passes
variable {r : Run} {sink sink' : Sink} {s s' : Scene} {path : String} {paths : List String}
  {fed : List (String × Batch)}

/-- A file that is converted has a batch, and its summary is that of the batch. -/
theorem convertFile_eq_ok {summary : FileSummary} (h : r.convertFile sink path s = .ok (summary, sink') s') :
    ∃ b, r.batchOf s.files path = .ok b ∧ summary = .ofBatch path b ∧
      r.finishFile sink path b s = .ok (summary, sink') s' := by
  rw [convertFile_eq] at h
  cases hb : r.batchOf s.files path with
  | error e =>
    rw [hb] at h
    cases h
  | ok b =>
    rw [hb] at h
    exact ⟨b, rfl, (finishFile_eq_ok h).1, h⟩

theorem convertFiles_eq_ok {summaries : List FileSummary}
    (h : r.convertFiles sink paths s = .ok (summaries, sink') s') :
    ∃ fed, fed.map Prod.fst = paths ∧ r.Passes fed sink s sink' s' ∧
      summaries = fed.map fun f => .ofBatch f.1 f.2 := by
  induction paths generalizing sink s summaries with
  | nil =>
    obtain ⟨hpair, rfl⟩ := pure_eq_ok.1 h
    cases hpair
    exact ⟨[], rfl, .nil .., rfl⟩
  | cons path paths ih =>
    obtain ⟨⟨summary, sink₁⟩, s₁, hfile, h⟩ := bind_eq_ok.1 h
    obtain ⟨⟨others, sink₂⟩, s₂, hfiles, hp⟩ := bind_eq_ok.1 h
    obtain ⟨hpair, rfl⟩ := pure_eq_ok.1 hp
    cases hpair
    obtain ⟨b, hread, rfl, -⟩ := convertFile_eq_ok hfile
    obtain ⟨fed, rfl, hpasses, rfl⟩ := ih hfiles
    exact ⟨(path, b) :: fed, rfl, .cons hread hfile hpasses, rfl⟩

/-- A run that fails has passed the files before the one that it fails at. -/
theorem convertFiles_eq_error {e : RunError} (h : r.convertFiles sink paths s = .error e s') :
    ∃ fed path after sink₁ s₁, paths = fed.map Prod.fst ++ path :: after ∧
      r.Passes fed sink s sink₁ s₁ ∧ r.convertFile sink₁ path s₁ = .error e s' := by
  induction paths generalizing sink s with
  | nil => cases h
  | cons path paths ih =>
    rcases bind_eq_error.1 h with hfile | ⟨⟨summary, sink₁⟩, s₁, hfile, h⟩
    · exact ⟨[], path, paths, sink, s, rfl, .nil sink s, hfile⟩
    · rcases bind_eq_error.1 h with hfiles | ⟨_, s₂, -, hp⟩
      · obtain ⟨b, hread, rfl, -⟩ := convertFile_eq_ok hfile
        obtain ⟨fed, stop, after, sink₂, s₂, rfl, hpasses, hfails⟩ := ih hfiles
        exact ⟨(path, b) :: fed, stop, after, sink₂, s₂, rfl, .cons hread hfile hpasses, hfails⟩
      · cases hp

variable (plain : ∀ l ∈ r.layouts, FilePath.Plain l.name) (hl : r.schema.layouts = .ok r.layouts)
include plain hl

/-- A file that is converted brings in the rows of its batch. -/
theorem finishFile_grew {b : Batch} {summary : FileSummary} (hr : Output.Ready r.layouts ⟨sink, s.files⟩)
    (hread : r.batchOf s.files path = .ok b) (h : r.finishFile sink path b s = .ok (summary, sink') s') :
    Output.Grew r.layouts b.tables.rows ⟨sink, s.files⟩ ⟨sink', s'.files⟩ := by
  obtain ⟨-, ⟨hcount, rfl, hfiles⟩ | ⟨s₁, hfiles, hflush⟩⟩ := finishFile_eq_ok h
  · have hnone : b.tables.rows = fun _ => [] := funext (Tables.rows_of_recordCount hcount)
    rw [hfiles, hnone]
    exact .refl hr
  · rw [← hfiles] at hr ⊢
    exact flush_grew plain (laidOut_batchOf hl hread) hr hflush

/-- Files that are passed bring in all their rows. -/
theorem Passes.grew (h : r.Passes fed sink s sink' s') (hr : Output.Ready r.layouts ⟨sink, s.files⟩) :
    Output.Grew r.layouts (rowsOf fed) ⟨sink, s.files⟩ ⟨sink', s'.files⟩ := by
  induction h with
  | nil sink s => exact .refl hr
  | cons read done rest ih =>
    obtain ⟨b, hread, -, hfinish⟩ := convertFile_eq_ok done
    obtain rfl := Except.ok.inj (read.symm.trans hread)
    have hfirst := finishFile_grew plain hl hr read hfinish
    exact hfirst.trans (ih (hfirst.ready hr))

end Passes

end Run

/-- A run's summary counts, for every table, the rows of all files. -/
theorem RunSummary.get?_records (fed : List (String × Batch)) (table : String) :
    ((RunSummary.records ⟨fed.map fun f => .ofBatch f.1 f.2⟩).get? table).getD 0 =
      (rowsOf fed table).length := by
  rw [RunSummary.records, get?_foldl_add, Dictionary.get?_empty, Option.getD_none, Nat.zero_add]
  induction fed with
  | nil => rfl
  | cons f fed ih =>
    have hfile : countIn (FileSummary.ofBatch f.1 f.2).records.entries table = (f.2.tables.rows table).length := by
      rw [countIn_eq_lookup (Dictionary.nodup_keys _)]
      exact FileSummary.get?_records f.1 f.2 table
    rw [List.map_cons, List.flatMap_cons, countIn_append, ih, hfile, rowsOf, rowsOf, List.flatMap_cons,
      List.length_append]

def Schema.PlainTables (schema : Schema) : Prop := ∀ t ∈ schema.tables, FilePath.Plain t.1

theorem Schema.plain_layouts {schema : Schema} (hp : schema.PlainTables) {ls : List TableLayout}
    (hl : schema.layouts = .ok ls) : ∀ l ∈ ls, FilePath.Plain l.name := by
  intro l hmem
  obtain ⟨t, ht, hname⟩ := Schema.mem_tables_of_layout hl hmem
  exact hname ▸ hp t ht

/-- A run that is ready has opened its output without touching a row. If it succeeds, the output has
grown by the rows of its files, and as many of them for each table as the summary says. If it fails, it
has passed the files before the one it fails at, and the output has grown by their rows alone: where the
documents of that file cannot be read nothing more is done at all, and where a database refuses their
records nothing comes of them. What is left over is a CSV file that cannot be written. -/
theorem output_grows_by_rows_of_files {schema : Schema} {c : RunConfig} {r : Run} {s₀ s₁ : Scene}
    (plain : schema.PlainTables) (sound : s₀.files.SoundDatabases)
    (hstart : Run.start schema c s₀ = .ok r s₁) :
    Output.Opened c s₀.files ⟨r.sink, s₁.files⟩ ∧
    (∀ summary s₂, r.convert s₁ = .ok summary s₂ → ∃ fed sink, fed.map Prod.fst = r.files ∧
      r.Passes fed r.sink s₁ sink s₂ ∧
      Output.Grew r.layouts (rowsOf fed) ⟨r.sink, s₁.files⟩ ⟨sink, s₂.files⟩ ∧
      ∀ table, (rowsOf fed table).length = (summary.records.get? table).getD 0) ∧
    (∀ e s₂, r.convert s₁ = .error e s₂ → ∃ fed path after sink s,
      r.files = fed.map Prod.fst ++ path :: after ∧ r.Passes fed r.sink s₁ sink s ∧
      Output.Grew r.layouts (rowsOf fed) ⟨r.sink, s₁.files⟩ ⟨sink, s.files⟩ ∧
      (r.batchOf s.files path = .error e ∧ s₂ = s ∨
        ∃ b, r.batchOf s.files path = .ok b ∧
          ((∃ file fault, e = .csv (.io file fault)) ∨
            ∃ store store' fault, sink = .sqlite store ∧ e = .store fault ∧
              Store.writeTables b.tables { store with warnings := [] } = .error fault store' ∧
              Output.Grew r.layouts (rowsOf fed) ⟨r.sink, s₁.files⟩ ⟨.sqlite store', s₂.files⟩))) := by
  obtain ⟨hlayouts, -, hschema, -, -, s, hfiles, hsink⟩ := Run.start_eq_ok hstart
  obtain ⟨hready, hopened⟩ := Run.openSink_opened (hfiles ▸ sound) hsink
  have hl : r.schema.layouts = .ok r.layouts := hschema ▸ hlayouts
  have hplain := Schema.plain_layouts plain hlayouts
  refine ⟨hfiles ▸ hopened, fun summary s₂ h => ?_, fun e s₂ h => ?_⟩
  · obtain ⟨⟨summaries, sink⟩, s₃, hall, hp⟩ := bind_eq_ok.1 h
    obtain ⟨rfl, rfl⟩ := pure_eq_ok.1 hp
    obtain ⟨fed, hfed, hpasses, rfl⟩ := Run.convertFiles_eq_ok hall
    refine ⟨fed, sink, hfed, hpasses, hpasses.grew hplain hl hready, fun table => ?_⟩
    exact (RunSummary.get?_records fed table).symm
  · rcases bind_eq_error.1 h with hall | ⟨_, s₃, -, hp⟩
    · obtain ⟨fed, path, after, sink, s, hfed, hpasses, hfile⟩ := Run.convertFiles_eq_error hall
      have hgrew := hpasses.grew hplain hl hready
      refine ⟨fed, path, after, sink, s, hfed, hpasses, hgrew, ?_⟩
      rw [Run.convertFile_eq] at hfile
      cases hb : r.batchOf s.files path with
      | error e' =>
        rw [hb] at hfile
        cases hfile
        exact .inl ⟨rfl, rfl⟩
      | ok b =>
        rw [hb] at hfile
        obtain ⟨s', hsame, hflush⟩ := Run.finishFile_eq_error hfile
        have hready' : Output.Ready r.layouts ⟨sink, s'.files⟩ := hsame ▸ hgrew.ready hready
        refine .inr ⟨b, rfl, ?_⟩
        rcases Run.flush_error (Run.laidOut_batchOf hl hb) hready' hflush with
          hfault | ⟨store, store', fault, hstore, he, hwrite, hnothing⟩
        · exact .inl hfault
        · refine .inr ⟨store, store', fault, hstore, he, hwrite, ?_⟩
          have hall := hgrew.trans (hsame ▸ hnothing)
          simpa using hall
    · cases hp

def namedAlbums : Schema where
  paths := [("album", .entity ⟨"album", none, none⟩ [("name", .column "id")])]

def albumTwice : FileSystem where
  entries := [(["a.xml"], .file "<album><name>X</name></album>".toUTF8.toList),
    (["b.xml"], .file "<album><name>X</name></album>".toUTF8.toList)]

def albumConfig : RunConfig := ⟨["a.xml", "b.xml"], false, .sqlite "db", {}, {}, 9⟩

def oneAlbum : Database := ⟨[⟨"album", [⟨"id", .text, true⟩], [[.text "X"]]⟩]⟩

/-- Whether a run is refused by its database and leaves it with one album. -/
def keepsOneAlbum : EStateM.Result RunError Scene Run → Bool
  | .ok r s =>
    match r.convert s with
    | .error (.store _) s => s.files.at? ["db"] = some (.database oneAlbum)
    | _ => false
  | .error .. => false

theorem output_grows_by_rows_of_files_album : namedAlbums.PlainTables ∧ albumTwice.SoundDatabases ∧
    ∃ r s₁ e s₂, Run.start namedAlbums albumConfig { files := albumTwice } = .ok r s₁ ∧
      r.convert s₁ = .error (.store e) s₂ ∧ s₂.files.at? ["db"] = some (.database oneAlbum) ∧
      ∃ fed path after sink s, r.files = fed.map Prod.fst ++ path :: after ∧
        r.Passes fed r.sink s₁ sink s ∧
        Output.Grew r.layouts (rowsOf fed) ⟨r.sink, s₁.files⟩ ⟨sink, s.files⟩ := by
  have plain : namedAlbums.PlainTables := by
    simp only [Schema.PlainTables]
    decide
  have sound : albumTwice.SoundDatabases := by decide
  have hkeeps : keepsOneAlbum (Run.start namedAlbums albumConfig { files := albumTwice }) = true := by
    decide +kernel
  cases hstart : Run.start namedAlbums albumConfig { files := albumTwice } with
  | error e s =>
    rw [hstart] at hkeeps
    cases hkeeps
  | ok r s₁ =>
    rw [hstart] at hkeeps
    cases hconvert : r.convert s₁ with
    | ok summary s₂ => simp [keepsOneAlbum, hconvert] at hkeeps
    | error e s₂ =>
      cases e with
      | store e =>
        have hfile : s₂.files.at? ["db"] = some (.database oneAlbum) := by
          simpa [keepsOneAlbum, hconvert] using hkeeps
        obtain ⟨-, -, hfails⟩ := output_grows_by_rows_of_files plain sound hstart
        obtain ⟨fed, path, after, sink, s, hfiles, hpasses, hgrew, -⟩ := hfails _ _ hconvert
        exact ⟨plain, sound, r, s₁, e, s₂, rfl, hconvert, hfile, fed, path, after, sink, s, hfiles, hpasses, hgrew⟩
      | input e => simp [keepsOneAlbum, hconvert] at hkeeps
      | schema e => simp [keepsOneAlbum, hconvert] at hkeeps
      | document e => simp [keepsOneAlbum, hconvert] at hkeeps
      | csv e => simp [keepsOneAlbum, hconvert] at hkeeps

end Tabulate
