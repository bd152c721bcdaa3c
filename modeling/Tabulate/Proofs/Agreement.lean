import Tabulate.Proofs.Inputs

/-! One input, two kinds of output. Whatever a database takes in from nothing, a directory of CSV files
takes in as well: the columns of every table are its header, and the rows its records. -/
namespace Tabulate

open Effects
open TableLayout (named?)

/-! ### Tables of texts -/

theorem Cell.toValue_ofValue (v : Option String) : (ofValue .text v).toValue = v := by
  cases v <;> rfl

def Table.csv (f : Csv.Format) (t : Table) : List Char :=
  (t.columns.map Column.name :: t.rows.map fun row => row.map fun cell => cell.toValue.getD f.null.text).flatMap
    f.record

namespace Store
variable {l : TableLayout} (h : l.columns.Nodup)
include h

theorem cellsOf_tableOf (r : Record) :
    (tableOf l).cellsOf r = l.columns.map fun c => Cell.ofValue .text (valueOf r c) := by
  rw [Table.cellsOf, columns_tableOf h, List.map_map]
  rfl

/-- A new table numbers nothing, so that its rows are what the records hold. -/
theorem row_of_stores {r : Record} {row : List Cell} (hs : (tableOf l).Stores r row) :
    row = (tableOf l).cellsOf r := by
  refine hs.resolve_right ?_
  rintro ⟨i, n, hi, -⟩
  have hnone : (tableOf l).rowNumberColumn? = none := by
    rw [Table.rowNumberColumn?, columns_tableOf h]
    simp
  rw [hnone] at hi
  cases hi

/-- Records make the same text in a table and in a sheet. -/
theorem sheet_eq_csv (w : Csv.Writer) {rs : List Record} {t : Table} (ht : (tableOf l).TakesIn rs t) :
    w.sheet l none rs = if t.rows = [] then none else some (Text.Utf8.encode (t.csv w.format)) := by
  obtain ⟨rows, rfl, hrows⟩ := ht
  obtain rfl : rs.map (tableOf l).cellsOf = rows := by
    rw [← List.forall₂_eq_eq_eq, List.forall₂_map_left_iff]
    exact hrows.imp fun r row hs => (row_of_stores h hs).symm
  have hfields (r : Record) : ((tableOf l).cellsOf r).map (fun cell => cell.toValue.getD w.format.null.text) =
      w.fieldsOf l r := by
    rw [cellsOf_tableOf h, List.map_map]
    exact List.map_congr_left fun c _ => congrArg (fun v => v.getD w.format.null.text) (Cell.toValue_ofValue _)
  have hheader : (tableOf l).columns.map Column.name = l.columns := by
    rw [columns_tableOf h, List.map_map]
    exact List.map_id _
  by_cases hrs : rs = []
  · simp [hrs, Csv.Writer.sheet, tableOf]
  · have hnew : (tableOf l).rows = [] := rfl
    simp [Csv.Writer.sheet, Table.csv, hrs, hnew, hheader, Function.comp_def, hfields]

end Store

/-! ### The same documents -/

def SameFed (fed fed' : List (String × Batch)) : Prop :=
  fed.map (fun f => (f.1, f.2.yield)) = fed'.map fun f => (f.1, f.2.yield)

namespace SameFed
variable {fed fed' : List (String × Batch)}

theorem rowsOf_eq (h : SameFed fed fed') : rowsOf fed = rowsOf fed' := by
  funext table
  have hrows (fed : List (String × Batch)) : rowsOf fed table =
      (fed.map fun f => (f.1, f.2.yield)).flatMap fun y => y.2.1.rows table := by
    rw [List.flatMap_map]
    rfl
  rw [hrows, hrows, h]

theorem summaries_eq (h : SameFed fed fed') : (fed.map fun f => FileSummary.ofBatch f.1 f.2) =
    fed'.map fun f => .ofBatch f.1 f.2 := by
  have hsummaries (fed : List (String × Batch)) : (fed.map fun f => FileSummary.ofBatch f.1 f.2) =
      (fed.map fun f => (f.1, f.2.yield)).map fun y =>
        ⟨y.1, y.2.2, Dictionary.ofList (y.2.1.entries.map fun e => (e.1, e.2.length))⟩ := by
    rw [List.map_map]
    rfl
  rw [hsummaries, hsummaries, h]

/-- Batches that come to what is known of their files are the same for the same files. -/
theorem of_known {g : String → Option (Tables × Nat)} (h : ∀ f ∈ fed, g f.1 = some f.2.yield)
    (h' : ∀ f ∈ fed', g f.1 = some f.2.yield) (hfiles : fed.map Prod.fst = fed'.map Prod.fst) :
    SameFed fed fed' := by
  have hknown {fed : List (String × Batch)} (h : ∀ f ∈ fed, g f.1 = some f.2.yield) :
      fed.map (fun f => (f.1, some f.2.yield)) = (fed.map Prod.fst).map fun path => (path, g path) := by
    rw [List.map_map]
    exact List.map_congr_left fun f hf => by rw [Function.comp_apply, h f hf]
  have hsome : fed.map (fun f => (f.1, some f.2.yield)) = fed'.map fun f => (f.1, some f.2.yield) := by
    rw [hknown h, hknown h', hfiles]
  have hinj : Function.Injective fun y : String × Tables × Nat => (y.1, some y.2) := by
    rintro ⟨p, y⟩ ⟨q, z⟩ hyz
    simpa using hyz
  refine hinj.list_map ?_
  rw [List.map_map, List.map_map]
  exact hsome

end SameFed

namespace Run
variable {r : Run} {fs : FileSystem} {fed : List (String × Batch)} {sink sink' : Sink} {s s' : Scene}

/-- A run that disturbs nothing finds every file as it was before the run. -/
theorem Passes.known (plain : ∀ l ∈ r.layouts, FilePath.Plain l.name) (hl : r.schema.layouts = .ok r.layouts)
    (h : r.Passes fed sink s sink' s') (hr : Output.Ready r.layouts ⟨sink, s.files⟩)
    (hbefore : fs.Lengthens s.files) (hafter : r.Undisturbed fs s'.files) (hfiles : ∀ f ∈ fed, f.1 ∈ r.files) :
    ∀ f ∈ fed, (r.batchOf fs f.1).toOption.map Batch.yield = some f.2.yield := by
  induction h with
  | nil => exact nofun
  | @cons path b fed sink sink₁ sink₂ s s₁ s₂ read done rest ih =>
    obtain ⟨b', hread, -, hfinish⟩ := convertFile_eq_ok done
    obtain rfl := Except.ok.inj (read.symm.trans hread)
    have hfirst := finishFile_grew plain hl hr read hfinish
    have hall := ((Passes.cons read done rest).grew plain hl hr).lengthens hr
    have hsame : r.Undisturbed fs s.files := fun file hfile => hbefore.between hall (hafter file hfile)
    intro f hf
    rcases List.mem_cons.1 hf with rfl | hf
    · rw [← hsame.toOption_batchOf (hfiles _ (by simp)), read]
      rfl
    · exact ih (hfirst.ready hr) (hbefore.trans (hfirst.lengthens hr)) hafter
        (fun g hg => hfiles g (List.mem_cons_of_mem _ hg)) f hf

def Knows (r : Run) (fs : FileSystem) (fed : List (String × Batch)) : Prop :=
  fed.map Prod.fst = r.files ∧
    ∀ f ∈ fed, (r.batchOf fs f.1).toOption.map Batch.yield = some f.2.yield

theorem Knows.same {fed' : List (String × Batch)} (h : r.Knows fs fed) (h' : r.Knows fs fed') :
    SameFed fed fed' :=
  .of_known (g := fun path => (r.batchOf fs path).toOption.map Batch.yield) h.2 h'.2 (h.1.trans h'.1.symm)

section Convert
variable (plain : ∀ l ∈ r.layouts, FilePath.Plain l.name) (hl : r.schema.layouts = .ok r.layouts)
  (hr : Output.Ready r.layouts ⟨r.sink, s.files⟩)
include plain hl hr

/-- A run that succeeds has brought in what its files bring in as they were before the run. -/
theorem convert_eq_ok {summary : RunSummary} (h : r.convert s = .ok summary s')
    (hbefore : fs.Lengthens s.files) (hafter : r.Undisturbed fs s'.files) :
    ∃ fed sink', r.Knows fs fed ∧ summary = ⟨fed.map fun f => .ofBatch f.1 f.2⟩ ∧
      r.convertFiles r.sink r.files s = .ok (summary.files, sink') s' ∧
      Output.Grew r.layouts (rowsOf fed) ⟨r.sink, s.files⟩ ⟨sink', s'.files⟩ := by
  obtain ⟨⟨summaries, sink'⟩, s₁, hall, hp⟩ := bind_eq_ok.1 h
  obtain ⟨rfl, rfl⟩ := pure_eq_ok.1 hp
  obtain ⟨fed, hfed, hpasses, rfl⟩ := convertFiles_eq_ok hall
  have hfiles (f : String × Batch) (hf : f ∈ fed) : f.1 ∈ r.files := hfed ▸ List.mem_map_of_mem hf
  have hknown := hpasses.known plain hl hr hbefore hafter hfiles
  exact ⟨fed, sink', ⟨hfed, hknown⟩, rfl, hall, hpasses.grew plain hl hr⟩

/-- Where all files can be read as they were before the run, only its output can fail. -/
theorem convert_eq_error (hk : r.Knows fs fed) {e : RunError} (h : r.convert s = .error e s')
    (hafter : r.Undisturbed fs s'.files) :
    (∃ file fault, e = .csv (.io file fault)) ∨ ∃ store fault, r.sink = .sqlite store ∧ e = .store fault := by
  rcases bind_eq_error.1 h with hall | ⟨_, s₁, -, hp⟩
  · obtain ⟨passed, path, after, sink₁, s₁, hfiles, hpasses, hfile⟩ := convertFiles_eq_error hall
    have hgrew := hpasses.grew plain hl hr
    rw [convertFile_eq] at hfile
    cases hb : r.batchOf s₁.files path with
    | error e' =>
      rw [hb] at hfile
      obtain ⟨rfl, rfl⟩ : e' = e ∧ s₁ = s' := by simpa using hfile
      -- the file could be read before
      have hpath : path ∈ r.files := by simp [hfiles]
      obtain ⟨f, hf, rfl⟩ := List.mem_map.1 (hk.1 ▸ hpath)
      have hknown := (hafter.toOption_batchOf hpath).trans (hk.2 f hf)
      rw [hb] at hknown
      cases hknown
    | ok b =>
      rw [hb] at hfile
      obtain ⟨s₂, hsame, hflush⟩ := finishFile_eq_error hfile
      have hready : Output.Ready r.layouts ⟨sink₁, s₂.files⟩ := hsame ▸ hgrew.ready hr
      rcases flush_error (laidOut_batchOf hl hb) hready hflush with hio | ⟨store, _, fault, rfl, he, -⟩
      · exact .inl hio
      · cases hsink : r.sink with
        | csv w =>
          rw [hsink] at hgrew
          cases hgrew
        | sqlite first => exact .inr ⟨first, fault, rfl, he⟩
  · cases hp

end Convert

end Run

/-! ### Both outputs -/

/-- Sheets that records have been written to from nothing are what a database makes of the records. -/
theorem content?_sheet {w : Csv.Writer} {ls : List TableLayout} {rows : String → List Record}
    {fs fs' : FileSystem} {d d' : Database} (hcolumns : ∀ l ∈ ls, l.columns.Nodup)
    (hd : d.Distinct) (htables : d.tables = ls.map Store.tableOf) (htakes : d.Takes rows d')
    (hwrote : w.Wrote ls rows fs fs') (hfree : ∀ l ∈ ls, fs.exists? (w.pathFor l.name) = false) :
    ∀ t ∈ d'.tables, fs'.content? (w.pathFor t.name) =
      if t.rows = [] then none else some (Text.Utf8.encode (t.csv w.format)) := by
  have hnames : (ls.map TableLayout.name).Nodup := by
    have hfold := (Database.distinctNames_iff.1 hd).of_map
    rwa [htables, List.map_map] at hfold
  intro t ht
  obtain ⟨t₀, ht₀, hin⟩ := htakes.exists_of_mem ht
  obtain ⟨l, hl, rfl⟩ := List.mem_map.1 (htables ▸ ht₀)
  have hname : t.name = l.name := hin.name
  rw [hname, hwrote.sheets l.name l (TableLayout.named?_of_mem hnames hl),
    FileSystem.content?_of_not_exists (hfree l hl)]
  exact Store.sheet_eq_csv (hcolumns l hl) w hin

/-- Where all files are known, a run that writes CSV files from nothing brings in what they bring in, unless
a file cannot be written. -/
theorem Run.convert_csv_of_knows {schema : Schema} {c : RunConfig} {directory : String}
    {layouts : List TableLayout} {files : List String} {t : Tabulator} {fed : List (String × Batch)} {s₀ : Scene}
    (hc : c.output = .csv directory) (hdelimiter : (Csv.asciiByte? c.csv.delimiter).isSome)
    (hquote : (Csv.asciiByte? c.csv.quote).isSome) (plain : ∀ l ∈ layouts, FilePath.Plain l.name)
    (hlayouts : schema.layouts = .ok layouts) (ht : Tabulator.ofSchema schema c.options = .ok t)
    (hfiles : s₀.files.discover c.inputs c.recurse = .ok files)
    (hknown : Knows ⟨schema, c, layouts, files, .csv ⟨directory, c.csv⟩⟩ s₀.files fed)
    (hafter : Undisturbed ⟨schema, c, layouts, files, .csv ⟨directory, c.csv⟩⟩ s₀.files
      (left ((start schema c >>= convert) s₀)).files) :
    (∃ file fault s, (start schema c >>= convert) s₀ = .error (.csv (.io file fault)) s) ∨
      ∃ s, (start schema c >>= convert) s₀ = .ok ⟨fed.map fun f => .ofBatch f.1 f.2⟩ s ∧
        Csv.Writer.Wrote ⟨directory, c.csv⟩ layouts (rowsOf fed) (s₀.files.makeDirectories directory).1 s.files := by
  rcases openSink_csv_cases hc hdelimiter hquote layouts
    { s₀ with warnings := s₀.warnings ++ RunWarning.ofFiles files } with ⟨fault, s, hfails⟩ | ⟨s, hopens, hmade⟩
  · refine .inl ⟨directory, fault, s, bind_eq_error.2 (.inl ?_)⟩
    rw [start_eq_openSink hlayouts ht hfiles, hfails]
  · let r : Run := ⟨schema, c, layouts, files, .csv ⟨directory, c.csv⟩⟩
    have hstart : start schema c s₀ = .ok r s := by rw [start_eq_openSink hlayouts ht hfiles, hopens]
    have hrun : (start schema c >>= convert) s₀ = r.convert s := by
      show EStateM.bind _ _ _ = _
      rw [EStateM.bind, hstart]
    rw [← hmade]
    have hready : Output.Ready r.layouts ⟨r.sink, s.files⟩ := .csv ..
    have hbefore : s₀.files.Lengthens s.files :=
      hmade ▸ (FileSystem.makeDirectories_makes s₀.files directory).lengthens
    rw [hrun] at hafter ⊢
    cases hconvert : r.convert s with
    | error e s' =>
      rw [hconvert] at hafter
      rcases convert_eq_error plain hlayouts hready hknown hconvert hafter with
        ⟨file, fault, rfl⟩ | ⟨_, _, hsink, -⟩
      · exact .inl ⟨file, fault, s', rfl⟩
      · cases hsink
    | ok summary s' =>
      rw [hconvert] at hafter
      obtain ⟨fed', sink, hknown', rfl, -, hgrew⟩ := convert_eq_ok plain hlayouts hready hconvert hbefore hafter
      have hsame := hknown.same hknown'
      refine .inr ⟨s', by rw [hsame.summaries_eq], ?_⟩
      rw [hsame.rowsOf_eq]
      cases hgrew with
      | csv wrote => exact wrote

/-- A run that fills an empty database has a counterpart that writes CSV files from nothing. If neither
disturbs what is read, that one succeeds as well, unless a file cannot be written, and it sums up the same.
Every table with rows has a file then, with its columns for a header and its rows in their order. -/
theorem sinks_agree {schema : Schema} {c : RunConfig} {path directory : String} {r : Run}
    {summary : RunSummary} {s₀ s₁ s₂ : Scene} (plain : schema.PlainTables)
    (hdelimiter : (Csv.asciiByte? c.csv.delimiter).isSome) (hquote : (Csv.asciiByte? c.csv.quote).isSome)
    (hstart : Run.start schema { c with output := .sqlite path } s₀ = .ok r s₁)
    (hconvert : r.convert s₁ = .ok summary s₂)
    (hempty : ∀ store, r.sink = .sqlite store → s₀.files.databaseAt store.address = .empty)
    (hsheets : ∀ t ∈ schema.tables, (s₀.files.makeDirectories directory).1.exists?
      (Csv.Writer.pathFor ⟨directory, c.csv⟩ t.1) = false)
    (hafter : r.Undisturbed s₀.files s₂.files)
    (hafter' : r.Undisturbed s₀.files
      (left ((Run.start schema { c with output := .csv directory } >>= Run.convert) s₀)).files) :
    ∃ store, r.convertFiles r.sink r.files s₁ = .ok (summary.files, .sqlite store) s₂ ∧
      (∀ a, store.address = some a → s₂.files.at? a = some (.database store.database)) ∧
      store.database.tables.map Table.name = r.layouts.map TableLayout.name ∧
      ((∃ file fault s, (Run.start schema { c with output := .csv directory } >>= Run.convert) s₀ =
          .error (.csv (.io file fault)) s) ∨
        ∃ s, (Run.start schema { c with output := .csv directory } >>= Run.convert) s₀ = .ok summary s ∧
          ∀ t ∈ store.database.tables, s.files.content? (Csv.Writer.pathFor ⟨directory, c.csv⟩ t.name) =
            if t.rows = [] then none else some (Text.Utf8.encode (t.csv c.csv))) := by
  obtain ⟨hlayouts, ⟨t, ht⟩, hschema, hconfig, hdiscover, s, hsame, hsink⟩ := Run.start_eq_ok hstart
  obtain ⟨_, _, layouts, files, sink⟩ := r
  obtain rfl : _ = schema := hschema
  obtain rfl : _ = { c with output := .sqlite path } := hconfig
  obtain ⟨opened, rfl, hbegun⟩ := Run.openSink_sqlite rfl hsink
  rw [hsame] at hbegun
  have hlayoutsPlain := Schema.plain_layouts plain hlayouts
  have hdistinct : (s₀.files.databaseAt opened.address).Distinct := hempty opened rfl ▸ rfl
  obtain ⟨fed, sink, hknown, rfl, hall, hgrew⟩ := Run.convert_eq_ok hlayoutsPlain hlayouts
    (hbegun.ready hdistinct) hconvert hbegun.lengthens hafter
  have htables := hbegun.tables_of_empty (hempty opened rfl)
  have hfree (l : TableLayout) (hl : l ∈ layouts) : (s₀.files.makeDirectories directory).1.exists?
      (Csv.Writer.pathFor ⟨directory, c.csv⟩ l.name) = false := by
    obtain ⟨table, htable, hname⟩ := Schema.mem_tables_of_layout hlayouts hl
    exact hname ▸ hsheets table htable
  cases hgrew with
  | @sqlite _ store _ _ takes _ saved _ =>
    have hnames : store.database.tables.map Table.name = layouts.map TableLayout.name := by
      rw [takes.database.names, htables, List.map_map]
      rfl
    refine ⟨store, hall, saved, hnames, ?_⟩
    rcases Run.convert_csv_of_knows (c := { c with output := .csv directory }) rfl hdelimiter hquote hlayoutsPlain
      hlayouts ht hdiscover hknown hafter' with hio | ⟨s, hrun, hwrote⟩
    · exact .inl hio
    · exact .inr ⟨s, hrun, content?_sheet (fun l hl => Schema.nodup_columns_of_layout hlayouts hl)
        (hbegun.tables hdistinct).1 htables takes.database hwrote hfree⟩

def albumOnce : FileSystem where
  entries := [(["a.xml"], .file "<album><name>X</name></album>".toUTF8.toList)]

def sheetsConfig : RunConfig := ⟨["a.xml"], false, .csv "sheets", {}, {}, 9⟩

/-- Whether a run is about to fill a new database and does so. -/
def fillsDatabase (p : Run → RunSummary → Scene → Bool) : EStateM.Result RunError Scene Run → Bool
  | .ok r s =>
    match r.sink, r.convert s with
    | .sqlite store, .ok summary s => store.address = some ["db"] && p r summary s
    | _, _ => false
  | .error .. => false

theorem exists_of_fillsDatabase {p : Run → RunSummary → Scene → Bool} {x : EStateM.Result RunError Scene Run}
    (h : fillsDatabase p x = true) : ∃ r s store summary s', x = .ok r s ∧ r.sink = .sqlite store ∧
      store.address = some ["db"] ∧ r.convert s = .ok summary s' ∧ p r summary s' = true := by
  cases x with
  | error e s => cases h
  | ok r s =>
    rw [fillsDatabase] at h
    cases hsink : r.sink with
    | csv w =>
      rw [hsink] at h
      cases h
    | sqlite store =>
      cases hconvert : r.convert s with
      | error e s' =>
        rw [hsink, hconvert] at h
        cases h
      | ok summary s' =>
        simp only [hsink, hconvert, Bool.and_eq_true, decide_eq_true_eq] at h
        exact ⟨r, s, store, summary, s', rfl, hsink, h.1, hconvert, h.2⟩

theorem sinks_agree_album : ∃ r s₁ summary s₂ store s,
    Run.start namedAlbums { sheetsConfig with output := .sqlite "db" } { files := albumOnce } = .ok r s₁ ∧
      r.convert s₁ = .ok summary s₂ ∧
      r.convertFiles r.sink r.files s₁ = .ok (summary.files, .sqlite store) s₂ ∧
      (Run.start namedAlbums sheetsConfig >>= Run.convert) { files := albumOnce } = .ok summary s ∧
      s.files.content? "sheets/album.csv" = some "id\r\nX\r\n".toUTF8.toList ∧
      ∀ t ∈ store.database.tables, s.files.content? (Csv.Writer.pathFor ⟨"sheets", {}⟩ t.name) =
        if t.rows = [] then none else some (Text.Utf8.encode (t.csv {})) := by
  have plain : namedAlbums.PlainTables := by
    simp only [Schema.PlainTables]
    decide
  have hfills : fillsDatabase
      (fun r _ s => r.files = ["a.xml"] && s.files.content? "a.xml" = albumOnce.content? "a.xml")
      (Run.start namedAlbums { sheetsConfig with output := .sqlite "db" } { files := albumOnce }) = true := by
    decide +kernel
  have hwrites : succeeds (fun s => s.files.content? "a.xml" = albumOnce.content? "a.xml" ∧
        s.files.content? "sheets/album.csv" = some "id\r\nX\r\n".toUTF8.toList)
      ((Run.start namedAlbums sheetsConfig >>= Run.convert) { files := albumOnce }) = true := by decide +kernel
  have hsheets : ∀ t ∈ namedAlbums.tables, (albumOnce.makeDirectories "sheets").1.exists?
      (Csv.Writer.pathFor ⟨"sheets", {}⟩ t.1) = false := by decide +kernel
  obtain ⟨summary', s, hrun, hs⟩ := succeeds_iff.1 hwrites
  obtain ⟨hkept, hsheet⟩ := of_decide_eq_true hs
  obtain ⟨r, s₁, store, summary, s₂, hstart, hsink, haddress, hconvert, hleft⟩ := exists_of_fillsDatabase hfills
  rw [Bool.and_eq_true, decide_eq_true_eq, decide_eq_true_eq] at hleft
  obtain ⟨-, -, -, hconfig, -⟩ := Run.start_eq_ok hstart
  have hdtd : r.config.options.dtdPath = none := by rw [hconfig]; rfl
  have hreads (fs' : FileSystem) (hfs : fs'.content? "a.xml" = albumOnce.content? "a.xml") :
      r.Undisturbed albumOnce fs' := by
    intro file hfile
    have hmem := Run.mem_files_of_reads hdtd hfile
    rw [hleft.1, List.mem_singleton] at hmem
    rw [hmem, hfs]
  have hempty (other : Store) (hother : r.sink = .sqlite other) : albumOnce.databaseAt other.address = .empty := by
    obtain rfl := Sink.sqlite.inj (hsink.symm.trans hother)
    rw [haddress]
    rfl
  have hafter : r.Undisturbed albumOnce
      (left ((Run.start namedAlbums sheetsConfig >>= Run.convert) { files := albumOnce })).files := by
    rw [hrun]
    exact hreads _ hkept
  obtain ⟨filled, hall, -, -, hagree⟩ := sinks_agree plain (by decide) (by decide) hstart hconvert hempty hsheets
    (hreads _ hleft.2) hafter
  rcases hagree with ⟨_, _, _, hio⟩ | ⟨s', hrun', hcontent⟩
  · cases hrun.symm.trans hio
  · obtain ⟨-, rfl⟩ : summary' = summary ∧ s = s' := by simpa using hrun.symm.trans hrun'
    exact ⟨r, s₁, summary, s₂, filled, s, hstart, hconvert, hsink ▸ hall, hrun', hsheet, hcontent⟩

def commentedAlbums : Schema where
  paths := [("album", .entity ⟨"album", none, none⟩ [("name", .column "<!--")])]

/-- Two albums. The sheet with the first one is a comment, and the other asks for its declarations. -/
def albumsWithSheet : FileSystem where
  entries := [(["a.xml"], .file "<album><name>--></name></album>".toUTF8.toList),
    (["b.xml"], .file "<!DOCTYPE album SYSTEM \"album.csv\"><album><name>Y</name></album>".toUTF8.toList)]

def declaredConfig : RunConfig :=
  ⟨["a.xml", "b.xml"], false, .csv "sheets", { dtdPath := some "sheets", continueOnError := true }, {}, 9⟩

/-- Where the declarations are looked for among the sheets, a run that writes sheets reads what it has written,
and sums up another count than the run that fills a database. -/
theorem sheet_read_as_declarations :
    (∃ r s₁ summary s₂ summary' s,
      Run.start commentedAlbums { declaredConfig with output := .sqlite "db" } { files := albumsWithSheet } = .ok r s₁ ∧
        r.convert s₁ = .ok summary s₂ ∧
        (Run.start commentedAlbums declaredConfig >>= Run.convert) { files := albumsWithSheet } = .ok summary' s ∧
        summary.records.get? "album" = some 1 ∧ summary'.records.get? "album" = some 2) ∧
    ¬∀ (schema : Schema) (c : RunConfig) (path directory : String) (r : Run) (summary : RunSummary)
      (s₀ s₁ s₂ : Scene), schema.PlainTables → (Csv.asciiByte? c.csv.delimiter).isSome →
        (Csv.asciiByte? c.csv.quote).isSome → Run.start schema { c with output := .sqlite path } s₀ = .ok r s₁ →
        r.convert s₁ = .ok summary s₂ →
        (∀ store, r.sink = .sqlite store → s₀.files.databaseAt store.address = .empty) →
        (∀ t ∈ schema.tables, (s₀.files.makeDirectories directory).1.exists?
          (Csv.Writer.pathFor ⟨directory, c.csv⟩ t.1) = false) →
        (∃ file fault s, (Run.start schema { c with output := .csv directory } >>= Run.convert) s₀ =
            .error (.csv (.io file fault)) s) ∨
          ∃ s, (Run.start schema { c with output := .csv directory } >>= Run.convert) s₀ = .ok summary s := by
  have plain : commentedAlbums.PlainTables := by
    simp only [Schema.PlainTables]
    decide
  have hfills : fillsDatabase (fun _ summary _ => summary.records.get? "album" = some 1)
      (Run.start commentedAlbums { declaredConfig with output := .sqlite "db" } { files := albumsWithSheet }) = true := by
    decide +kernel
  have hwrites : ((Run.start commentedAlbums declaredConfig >>= Run.convert).run' { files := albumsWithSheet }).bind
      (fun summary => summary.records.get? "album") = some 2 := by decide +kernel
  have hsheets : ∀ t ∈ commentedAlbums.tables, (albumsWithSheet.makeDirectories "sheets").1.exists?
      (Csv.Writer.pathFor ⟨"sheets", {}⟩ t.1) = false := by decide +kernel
  obtain ⟨r, s₁, store, summary, s₂, hstart, hsink, haddress, hconvert, hone⟩ := exists_of_fillsDatabase hfills
  have hone := of_decide_eq_true hone
  have hempty (other : Store) (hother : r.sink = .sqlite other) :
      albumsWithSheet.databaseAt other.address = .empty := by
    obtain rfl := Sink.sqlite.inj (hsink.symm.trans hother)
    rw [haddress]
    rfl
  obtain ⟨summary', hanswer, htwo⟩ := Option.bind_eq_some_iff.1 hwrites
  obtain ⟨s, hrun⟩ := exists_of_run' hanswer
  refine ⟨⟨r, s₁, summary, s₂, summary', s, hstart, hconvert, hrun, hone, htwo⟩, fun h => ?_⟩
  rcases h commentedAlbums declaredConfig "db" "sheets" r summary { files := albumsWithSheet } s₁ s₂ plain
    (by decide) (by decide) hstart hconvert hempty hsheets with ⟨_, _, _, hio⟩ | ⟨s', hrun'⟩
  · cases hrun.symm.trans hio
  · obtain ⟨rfl, -⟩ : summary' = summary ∧ s = s' := by simpa using hrun.symm.trans hrun'
    rw [hone] at htwo
    cases htwo

end Tabulate
