import Tabulate.Proofs.Preparations
import Tabulate.Proofs.Sheets
import Tabulate.Run.Basic

/-! The output of a run: a sink together with the files. What is written to it are rows of its tables,
and a flush either brings in all its rows or, where the sink is a database, none. -/
namespace Tabulate

open Effects

/-- Every table has records, and a layout for them. -/
def Tables.LaidOut (ls : List TableLayout) (t : Tables) : Prop :=
  ∀ table rs, t.get? table = some rs → rs ≠ [] ∧ (TableLayout.named? ls table).isSome

structure Output where
  sink : Sink
  files : FileSystem

namespace Output

inductive Ready (ls : List TableLayout) : Output → Prop
  | csv (w : Csv.Writer) (fs : FileSystem) : Ready ls ⟨.csv w, fs⟩
  | sqlite (s : Store) (fs : FileSystem) (distinct : s.database.Distinct)
      (tables : ∀ l ∈ ls, l.name ∈ s.tableNames)
      (saved : ∀ a, s.address = some a → fs.at? a = some (.database s.database)) :
      Ready ls ⟨.sqlite s, fs⟩

/-- Rows have come into an output, and nothing else has become of it or of other files. -/
inductive Grew (ls : List TableLayout) (rows : String → List Record) : Output → Output → Prop
  | csv {w : Csv.Writer} {fs fs' : FileSystem} (wrote : w.Wrote ls rows fs fs') :
      Grew ls rows ⟨.csv w, fs⟩ ⟨.csv w, fs'⟩
  | sqlite {s s' : Store} {fs fs' : FileSystem} (takes : s.Takes rows s')
      (directories : fs.SameDirectories fs')
      (saved : ∀ a, s'.address = some a → fs'.at? a = some (.database s'.database))
      (others : ∀ a, s.address ≠ some a → fs'.at? a = fs.at? a) :
      Grew ls rows ⟨.sqlite s, fs⟩ ⟨.sqlite s', fs'⟩

section Grew
variable {ls : List TableLayout} {rows more : String → List Record} {o o' o'' : Output}

theorem Grew.refl (h : Ready ls o) : Grew ls (fun _ => []) o o := by
  cases h with
  | csv w fs => exact .csv (.refl w ls fs)
  | sqlite s fs distinct tables saved => exact .sqlite (.refl s) (.refl fs) saved fun _ _ => rfl

theorem Grew.trans (h : Grew ls rows o o') (h' : Grew ls more o' o'') :
    Grew ls (fun k => rows k ++ more k) o o'' := by
  cases h with
  | csv wrote =>
    cases h' with
    | csv wrote' => exact .csv (wrote.trans wrote')
  | sqlite takes directories saved others =>
    cases h' with
    | sqlite takes' directories' saved' others' =>
      refine .sqlite (takes.trans takes') (directories.trans directories') saved' fun a ha => ?_
      rw [others' a (takes.address ▸ ha), others a ha]

theorem Grew.ready (h : Grew ls rows o o') (hr : Ready ls o) : Ready ls o' := by
  cases h with
  | csv wrote => exact .csv ..
  | sqlite takes directories saved others =>
    cases hr with
    | sqlite _ _ distinct tables _ =>
      refine .sqlite _ _ (takes.database.distinct distinct) (fun l hl => ?_) saved
      rw [Store.tableNames, takes.database.names]
      exact tables l hl

end Grew

/-- What can be read does not go away while an output grows. -/
theorem Grew.lengthens {ls : List TableLayout} {rows : String → List Record} {sink sink' : Sink}
    {fs fs' : FileSystem} (h : Grew ls rows ⟨sink, fs⟩ ⟨sink', fs'⟩) (hr : Ready ls ⟨sink, fs⟩) :
    fs.Lengthens fs' := by
  cases h with
  | @csv w _ _ wrote =>
    refine FileSystem.lengthens_of_keeps wrote.directories.1 fun a bytes hbytes => ?_
    by_cases ha : ∃ l ∈ ls, fs.locate (w.pathFor l.name) = .ok a
    · obtain ⟨l, hl, hloc⟩ := ha
      have hloc' := (wrote.directories.locate_iff (w.not_endsInSlash_pathFor l.name)).2 hloc
      obtain ⟨k, hk⟩ := TableLayout.exists_named?_of_mem hl
      rw [← FileSystem.content?_of_locate hloc', wrote.sheets l.name k hk, FileSystem.content?_of_locate hloc,
        hbytes, Csv.Writer.sheet]
      split
      · exact ⟨bytes, rfl, List.prefix_rfl⟩
      · exact ⟨_, rfl, List.prefix_append ..⟩
    · rw [wrote.others a fun l hl hloc => ha ⟨l, hl, hloc⟩]
      exact ⟨bytes, hbytes, List.prefix_rfl⟩
  | @sqlite s _ _ _ takes directories saved others =>
    refine FileSystem.lengthens_of_keeps directories.1 fun a bytes hbytes => ?_
    have hsame : (fs'.at? a).bind Entry.bytes? = (fs.at? a).bind Entry.bytes? := by
      by_cases ha : s.address = some a
      · cases hr with
        | sqlite _ _ _ _ before =>
          rw [saved a (takes.address.trans ha), before a ha]
          rfl
      · rw [others a ha]
    exact ⟨bytes, hsame.trans hbytes, List.prefix_rfl⟩

/-- A store that takes records in grows with the file that it is saved in. -/
theorem grew_save {ls : List TableLayout} {rows : String → List Record} {s s' : Store} {fs : FileSystem}
    (hr : Ready ls ⟨.sqlite s, fs⟩) (h : s.Takes rows s') :
    Grew ls rows ⟨.sqlite s, fs⟩ ⟨.sqlite s', s'.save fs⟩ := by
  cases hr with
  | sqlite _ _ distinct tables saved =>
    cases hs : s.address with
    | none =>
      have haddress : s'.address = none := h.address.trans hs
      have hfiles : s'.save fs = fs := by rw [Store.save, haddress]
      rw [hfiles]
      refine .sqlite h (.refl fs) (fun a ha => ?_) fun _ _ => rfl
      rw [haddress] at ha
      cases ha
    | some a =>
      have haddress : s'.address = some a := h.address.trans hs
      have hfiles : s'.save fs = fs.set a (.database s'.database) := by rw [Store.save, haddress]
      have hfile : fs.at? a ≠ some .directory := by
        rw [saved a hs]
        intro h
        cases h
      have hne := FileSystem.ne_nil_of_at? hfile
      rw [hfiles]
      have hentry : Entry.database s'.database ≠ .directory := by
        intro h
        cases h
      refine .sqlite h (FileSystem.sameDirectories_set hfile hentry) (fun b hb => ?_) fun b hb => ?_
      · rw [haddress] at hb
        obtain rfl : a = b := Option.some.inj hb
        rw [FileSystem.at?_set fs hne, if_pos rfl]
      · have hba : b ≠ a := fun hba => hb (hba ▸ hs)
        rw [FileSystem.at?_set fs hne, if_neg hba]

end Output

/-! ### Flushing -/

namespace Scene

/-- A warning leaves the files alone. -/
theorem files_of_warn {ws : List RunWarning} {s s' : Scene} {a : Unit} (h : warn ws s = .ok a s') :
    s'.files = s.files := by
  cases h
  rfl

theorem write_eq_ok {α : Type} {f : EStateM Csv.Error FileSystem α} {s s' : Scene} {a : α} :
    write f s = .ok a s' ↔ ∃ files, f s.files = .ok a files ∧ s' = { s with files } := by
  rw [write]
  cases f s.files with
  | error e files => exact ⟨nofun, nofun⟩
  | ok b files =>
    constructor
    · intro h
      cases h
      exact ⟨files, rfl, rfl⟩
    · rintro ⟨_, ⟨⟩, rfl⟩
      rfl

theorem write_eq_error {α : Type} {f : EStateM Csv.Error FileSystem α} {s s' : Scene} {e : RunError} :
    write f s = .error e s' ↔ ∃ fault files, f s.files = .error fault files ∧ e = .csv fault ∧
      s' = { s with files } := by
  rw [write]
  cases f s.files with
  | ok b files => exact ⟨nofun, nofun⟩
  | error fault files =>
    constructor
    · intro h
      cases h
      exact ⟨fault, files, rfl, rfl, rfl⟩
    · rintro ⟨_, _, ⟨⟩, rfl, rfl⟩
      rfl

theorem use_eq_ok {α : Type} {store store' : Store} {f : Storing α} {s s' : Scene} {a : α}
    (h : use store f s = .ok (a, store') s') :
    f { store with warnings := [] } = .ok a store' ∧ s'.files = store'.save s.files := by
  rw [use] at h
  cases hf : f { store with warnings := [] } with
  | error e t =>
    rw [hf] at h
    cases h
  | ok b t =>
    rw [hf] at h
    cases h
    exact ⟨rfl, rfl⟩

theorem use_eq_error {α : Type} {store : Store} {f : Storing α} {s s' : Scene} {e : RunError}
    (h : use store f s = .error e s') : ∃ fault store',
      f { store with warnings := [] } = .error fault store' ∧ e = .store fault ∧
      s'.files = store'.save s.files := by
  rw [use] at h
  cases hf : f { store with warnings := [] } with
  | ok b t =>
    rw [hf] at h
    cases h
  | error fault t =>
    rw [hf] at h
    cases h
    exact ⟨fault, t, rfl, rfl, rfl⟩

end Scene

namespace Run
variable {r : Run} {t : Tables} {sink sink' : Sink} {s s' : Scene}

theorem mem_tableNames_of_laidOut {ls : List TableLayout} {store : Store} (ht : t.LaidOut ls)
    (htables : ∀ l ∈ ls, l.name ∈ store.tableNames) {table : String} (hk : table ∈ t.keys) :
    table ∈ store.tableNames := by
  obtain ⟨rs, hrs⟩ := (Dictionary.mem_keys_iff ..).1 hk
  obtain ⟨l, hl⟩ := Option.isSome_iff_exists.1 (ht table rs hrs).2
  obtain ⟨hmem, rfl⟩ := TableLayout.named?_eq_some hl
  exact htables l hmem

/-- A flush that succeeds brings the rows of its tables into the output. -/
theorem flush_grew (plain : ∀ l ∈ r.layouts, FilePath.Plain l.name) (ht : t.LaidOut r.layouts)
    (hr : Output.Ready r.layouts ⟨sink, s.files⟩) (h : r.flush t sink s = .ok sink' s') :
    Output.Grew r.layouts t.rows ⟨sink, s.files⟩ ⟨sink', s'.files⟩ := by
  cases sink with
  | csv w =>
    obtain ⟨n, s₁, hwrite, hp⟩ := bind_eq_ok.1 h
    obtain ⟨rfl, rfl⟩ := pure_eq_ok.1 hp
    obtain ⟨files, hw, rfl⟩ := Scene.write_eq_ok.1 hwrite
    exact .csv (Csv.Writer.writeTables_wrote plain (fun table rs hrs => (ht table rs hrs).1) hw)
  | sqlite store =>
    obtain ⟨⟨n, store'⟩, s₁, hu, hp⟩ := bind_eq_ok.1 h
    obtain ⟨rfl, rfl⟩ := pure_eq_ok.1 hp
    obtain ⟨hw, hfiles⟩ := Scene.use_eq_ok hu
    cases hr with
    | sqlite _ _ distinct tables saved =>
      have hquiet := Store.writeTables_takes (s := { store with warnings := [] }) distinct
        (fun _ hk => mem_tableNames_of_laidOut ht tables hk) hw
      have htakes : store.Takes t.rows store' := ⟨hquiet.config, hquiet.address, hquiet.database⟩
      rw [hfiles]
      exact Output.grew_save (.sqlite store s.files distinct tables saved) htakes

/-- Where a flush into a database fails, nothing has come of it. Writing CSV files can stop half-way, but
only because a file cannot be written. -/
theorem flush_error {e : RunError} (ht : t.LaidOut r.layouts)
    (hr : Output.Ready r.layouts ⟨sink, s.files⟩) (h : r.flush t sink s = .error e s') :
    (∃ path fault, e = .csv (.io path fault)) ∨
    ∃ store store' fault, sink = .sqlite store ∧ e = .store fault ∧
      Store.writeTables t { store with warnings := [] } = .error fault store' ∧
      Output.Grew r.layouts (fun _ => []) ⟨sink, s.files⟩ ⟨.sqlite store', s'.files⟩ := by
  cases sink with
  | csv w =>
    rcases bind_eq_error.1 h with hwrite | ⟨n, s₁, -, hp⟩
    · obtain ⟨fault, files, hw, rfl, rfl⟩ := Scene.write_eq_error.1 hwrite
      have hnamed (table : String) (hk : table ∈ t.keys) : (TableLayout.named? r.layouts table).isSome := by
        obtain ⟨rs, hrs⟩ := (Dictionary.mem_keys_iff ..).1 hk
        exact (ht table rs hrs).2
      obtain ⟨path, io, rfl⟩ := Csv.Writer.writeTables_fault hnamed hw
      exact .inl ⟨path, io, rfl⟩
    · cases hp
  | sqlite store =>
    rcases bind_eq_error.1 h with hu | ⟨n, s₁, -, hp⟩
    · obtain ⟨fault, store', hw, rfl, hfiles⟩ := Scene.use_eq_error hu
      refine .inr ⟨store, store', fault, rfl, rfl, hw, ?_⟩
      have hstore := Store.writeTables_error hw
      have hnothing : store.Takes (fun _ => []) store' := hstore ▸ ⟨rfl, rfl, .refl _⟩
      rw [hfiles]
      exact Output.grew_save hr hnothing
    · cases hp

end Run

/-! ### Opening -/

namespace Run
variable {schema : Schema} {c : RunConfig} {r : Run} {s s' : Scene}

theorem openStore_eq_ok {config : StoreConfig} {store : Store} (h : openStore config s = .ok store s') :
    ∃ made, s.files.MakesDirectories made ∧
      made.openDatabase config.path = .ok (store.database, store.address) ∧
      s'.files = store.save made := by
  rw [openStore] at h
  split at h
  · next found fs hopen =>
    cases h
    obtain ⟨made, hmade, -, hdatabase, rfl⟩ := Store.openAt_eq_ok hopen
    exact ⟨made, hmade, hdatabase, rfl⟩
  · cases h

/-- A database is opened and prepared for its layouts. -/
theorem openSink_sqlite {path : String} (hc : c.output = .sqlite path) {ls : List TableLayout} {sink : Sink}
    (h : openSink c ls s = .ok sink s') : ∃ store, sink = .sqlite store ∧
      Store.Begun ⟨path, c.maxVars⟩ ls s.files store s'.files := by
  rw [openSink, hc] at h
  obtain ⟨_, _, hget, h⟩ := bind_eq_ok.1 h
  cases hget
  have hopen (s₁ : Scene) (hs : s₁.files = s.files) (h : (do
      let store ← openStore ⟨path, c.maxVars⟩
      let prepared ← Scene.use store (Store.prepare ls)
      return Sink.sqlite prepared.2 : Running Sink) s₁ = .ok sink s') :
      ∃ store, sink = .sqlite store ∧ Store.Begun ⟨path, c.maxVars⟩ ls s.files store s'.files := by
    obtain ⟨opened, s₂, hstore, h⟩ := bind_eq_ok.1 h
    obtain ⟨made, hmade, hdatabase, hfiles⟩ := openStore_eq_ok hstore
    obtain ⟨⟨_, store⟩, s₃, huse, hp⟩ := bind_eq_ok.1 h
    obtain ⟨rfl, rfl⟩ := pure_eq_ok.1 hp
    obtain ⟨hprepare, hsaved⟩ := Scene.use_eq_ok huse
    exact ⟨store, rfl, made, opened, hs ▸ hmade, hdatabase, hprepare, by rw [hsaved, hfiles]⟩
  split at h
  · obtain ⟨_, s₁, hwarn, h⟩ := bind_eq_ok.1 h
    exact hopen s₁ (Scene.files_of_warn hwarn) h
  · exact hopen s rfl h

theorem openSink_csv {directory : String} (hc : c.output = .csv directory) {ls : List TableLayout}
    {sink : Sink} (h : openSink c ls s = .ok sink s') :
    sink = .csv ⟨directory, c.csv⟩ ∧ s.files.MakesDirectories s'.files := by
  rw [openSink, hc] at h
  obtain ⟨w, s₁, hw, hp⟩ := bind_eq_ok.1 h
  obtain ⟨rfl, rfl⟩ := pure_eq_ok.1 hp
  obtain ⟨files, hopen, rfl⟩ := Scene.write_eq_ok.1 hw
  rw [Csv.Writer.openIn] at hopen
  split at hopen
  · cases hopen
  · split at hopen
    · cases hopen
    · have hmakes := FileSystem.makeDirectories_makes s.files directory
      split at hopen
      · next hmade =>
        cases hopen
        rw [hmade] at hmakes
        exact ⟨rfl, hmakes⟩
      · cases hopen

end Run

/-- A store that is opened is ready. -/
theorem Store.Begun.ready {config : StoreConfig} {ls : List TableLayout} {fs fs' : FileSystem} {store : Store}
    (h : Begun config ls fs store fs') (hd : (fs.databaseAt store.address).Distinct) :
    Output.Ready ls ⟨.sqlite store, fs'⟩ := by
  obtain ⟨made, -, -, hat, -⟩ := h.at?
  obtain ⟨hdistinct, hnames, -⟩ := h.tables hd
  refine .sqlite _ _ hdistinct hnames fun a ha => ?_
  rw [hat, if_pos ha]

inductive Output.Opened (c : RunConfig) (fs : FileSystem) : Output → Prop
  | csv {directory : String} {fs' : FileSystem} (output : c.output = .csv directory)
      (makes : fs.MakesDirectories fs') : Opened c fs ⟨.csv ⟨directory, c.csv⟩, fs'⟩
  | sqlite {path : String} {s : Store} {fs' : FileSystem} (output : c.output = .sqlite path)
      (widens : (fs.databaseAt s.address).WidensTo s.database) : Opened c fs ⟨.sqlite s, fs'⟩

namespace Run

/-- An output that is opened is ready, and its rows are those that were there. -/
theorem openSink_opened {c : RunConfig} {ls : List TableLayout} {sink : Sink} {s s' : Scene}
    (hs : s.files.SoundDatabases) (h : openSink c ls s = .ok sink s') :
    Output.Ready ls ⟨sink, s'.files⟩ ∧ Output.Opened c s.files ⟨sink, s'.files⟩ := by
  cases hc : c.output with
  | csv directory =>
    obtain ⟨rfl, hmakes⟩ := openSink_csv hc h
    exact ⟨.csv .., .csv hc hmakes⟩
  | sqlite path =>
    obtain ⟨store, rfl, hbegun⟩ := openSink_sqlite hc h
    have hd := hs.databaseAt store.address
    exact ⟨hbegun.ready hd, .sqlite hc (hbegun.tables hd).2.2⟩

/-- A run that is ready has the layouts of its schema and the files that its inputs stand for. -/
theorem start_eq_ok {schema : Schema} {c : RunConfig} {r : Run} {s s' : Scene}
    (h : start schema c s = .ok r s') : schema.layouts = .ok r.layouts ∧
      (∃ t, Tabulator.ofSchema schema c.options = .ok t) ∧ r.schema = schema ∧ r.config = c ∧
      s.files.discover c.inputs c.recurse = .ok r.files ∧
      ∃ s₁, s₁.files = s.files ∧ openSink c r.layouts s₁ = .ok r.sink s' := by
  obtain ⟨layouts, s₁, hcollect, h⟩ := bind_eq_ok.1 h
  obtain ⟨hlayouts, rfl⟩ := ofExcept_eq_ok.1 hcollect
  obtain ⟨t, s₂, ht, h⟩ := bind_eq_ok.1 h
  obtain ⟨htabulator, rfl⟩ := ofExcept_eq_ok.1 ht
  obtain ⟨_, _, hget, h⟩ := bind_eq_ok.1 h
  cases hget
  obtain ⟨files, s₃, hdiscover, h⟩ := bind_eq_ok.1 h
  obtain ⟨hfiles, rfl⟩ := ofExcept_eq_ok.1 hdiscover
  obtain ⟨_, s₄, hwarn, h⟩ := bind_eq_ok.1 h
  obtain ⟨sink, s₅, hsink, hp⟩ := bind_eq_ok.1 h
  obtain ⟨rfl, rfl⟩ := pure_eq_ok.1 hp
  exact ⟨mapError_eq_ok.1 hlayouts, ⟨t, mapError_eq_ok.1 htabulator⟩, rfl, rfl, mapError_eq_ok.1 hfiles, s₄,
    Scene.files_of_warn hwarn, hsink⟩

/-- Where nothing else is in the way, whether a run gets ready is up to its output. -/
theorem start_eq_openSink {schema : Schema} {c : RunConfig} {layouts : List TableLayout} {files : List String}
    {t : Tabulator} {s : Scene} (hlayouts : schema.layouts = .ok layouts)
    (ht : Tabulator.ofSchema schema c.options = .ok t)
    (hfiles : s.files.discover c.inputs c.recurse = .ok files) :
    start schema c s =
      match openSink c layouts { s with warnings := s.warnings ++ RunWarning.ofFiles files } with
      | .ok sink s' => .ok ⟨schema, c, layouts, files, sink⟩ s'
      | .error e s' => .error e s' := by
  rw [start, hlayouts, ht]
  show (do
    let files ← MonadExcept.ofExcept ((s.files.discover c.inputs c.recurse).mapError RunError.input)
    Scene.warn (RunWarning.ofFiles files)
    return ⟨schema, c, layouts, files, ← openSink c layouts⟩ : Running Run) s = _
  rw [hfiles]
  show EStateM.bind (openSink c layouts) _ _ = _
  rw [EStateM.bind]
  cases openSink c layouts { s with warnings := s.warnings ++ RunWarning.ofFiles files } <;> rfl

/-- CSV files are ready to be written as soon as their directory can be made. -/
theorem openSink_csv_cases {c : RunConfig} {directory : String} (hc : c.output = .csv directory)
    (hdelimiter : (Csv.asciiByte? c.csv.delimiter).isSome) (hquote : (Csv.asciiByte? c.csv.quote).isSome)
    (ls : List TableLayout) (s : Scene) :
    (∃ fault s', openSink c ls s = .error (.csv (.io directory fault)) s') ∨
      ∃ s', openSink c ls s = .ok (.csv ⟨directory, c.csv⟩) s' ∧
        s'.files = (s.files.makeDirectories directory).1 := by
  have hascii {x : Option Nat} (hx : x.isSome) : ¬x.isNone = true := by
    cases x with
    | none => cases hx
    | some n => exact nofun
  have hwrite : openSink c ls s =
      (Scene.write (Csv.Writer.openIn directory c.csv) >>= fun w => pure (.csv w) : Running Sink) s := by
    rw [openSink, hc]
  rw [hwrite]
  cases hmade : s.files.makeDirectories directory with
  | mk fs made =>
    cases made with
    | error fault =>
      have hopen : Csv.Writer.openIn directory c.csv s.files = .error (.io directory fault) fs := by
        rw [Csv.Writer.openIn, if_neg (hascii hdelimiter), if_neg (hascii hquote), hmade]
      have hfails := Scene.write_eq_error.2 ⟨_, fs, hopen, rfl, rfl⟩
      exact .inl ⟨fault, { s with files := fs }, bind_eq_error.2 (.inl hfails)⟩
    | ok _ =>
      have hopen : Csv.Writer.openIn directory c.csv s.files = .ok ⟨directory, c.csv⟩ fs := by
        rw [Csv.Writer.openIn, if_neg (hascii hdelimiter), if_neg (hascii hquote), hmade]
      have hopens := Scene.write_eq_ok.2 ⟨fs, hopen, rfl⟩
      exact .inr ⟨{ s with files := fs }, bind_eq_ok.2 ⟨_, _, hopens, rfl⟩, rfl⟩

end Run

end Tabulate
