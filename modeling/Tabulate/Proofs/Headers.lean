import Tabulate.Proofs.Preparations
import Tabulate.Proofs.Sheets

/-! Sheets over several runs. A sheet that is made begins with the columns of the layout that it is made
for; whatever comes later is appended in the order of its own layout, below the header of the first. -/
namespace Tabulate.Csv

open Effects

structure Portion where
  layout : TableLayout
  records : List Record

/-- Whether each value of a row has its column at its place in a header that is as long as the row. -/
def Under (header columns row : List String) : Prop :=
  row.length = header.length ∧ ∀ (i : Nat) (c : String), columns[i]? = some c → header[i]? = some c

namespace Writer
variable (w : Writer)

theorem under_fieldsOf_iff {header : List String} {l : TableLayout} {r : Record} :
    Under header l.columns (w.fieldsOf l r) ↔ l.columns = header := by
  have hlength : (w.fieldsOf l r).length = l.columns.length := List.length_map _
  constructor
  · rintro ⟨hrow, hcolumns⟩
    refine List.ext_getElem (hlength.symm.trans hrow) fun i hi hi' => ?_
    have hc := hcolumns i l.columns[i] (List.getElem?_eq_getElem hi)
    rw [List.getElem?_eq_getElem hi'] at hc
    exact (Option.some.inj hc).symm
  · rintro rfl
    exact ⟨hlength, fun _ _ hc => hc⟩

def lines (rows : List (List String)) : List UInt8 := Text.Utf8.encode (rows.flatMap w.format.record)

@[simp] theorem lines_nil : w.lines [] = [] := rfl

theorem lines_append (rows more : List (List String)) : w.lines (rows ++ more) = w.lines rows ++ w.lines more := by
  simp [lines, Text.Utf8.encode]

def rowsOf (p : Portion) : List (List String) := p.records.map (w.fieldsOf p.layout)

def portionsAt (fs : FileSystem) (a : List String) (ps : List Portion) : List Portion :=
  ps.filter fun p => (fs.locate (w.pathFor p.layout.name)).toOption = some a

variable {w} {fs fs' fs'' : FileSystem} {a : List String} {ps more : List Portion} {p : Portion}

theorem mem_portionsAt : p ∈ w.portionsAt fs a ps ↔ p ∈ ps ∧ fs.locate (w.pathFor p.layout.name) = .ok a := by
  rw [portionsAt, List.mem_filter, decide_eq_true_eq]
  cases fs.locate (w.pathFor p.layout.name) with
  | error fault => simp [Except.toOption]
  | ok b => simp [Except.toOption]

structure Appends (w : Writer) (fs : FileSystem) (ps : List Portion) (fs' : FileSystem) : Prop where
  directories : fs.KeepsDirectories fs'
  places : ∀ p ∈ ps, ∃ a bytes, fs'.locate (w.pathFor p.layout.name) = .ok a ∧ fs'.at? a = some (.file bytes)
  fresh : ∀ a, fs.at? a = none →
    w.portionsAt fs' a ps = [] ∧ (fs'.at? a = none ∨ fs'.at? a = some .directory) ∨
    ∃ first rest, w.portionsAt fs' a ps = first :: rest ∧ fs'.at? a =
      some (.file (w.lines (first.layout.columns :: (w.portionsAt fs' a ps).flatMap w.rowsOf)))
  longer : ∀ a bytes, fs.at? a = some (.file bytes) →
    fs'.at? a = some (.file (bytes ++ w.lines ((w.portionsAt fs' a ps).flatMap w.rowsOf)))

theorem appends_of_makesDirectories (h : fs.MakesDirectories fs') : w.Appends fs [] fs' where
  directories := h.keepsDirectories
  places := nofun
  fresh a ha := by
    refine .inl ⟨rfl, ?_⟩
    rcases h.made a with hsame | ⟨-, hmade⟩
    · exact .inl (hsame.trans ha)
    · exact .inr hmade
  longer a bytes ha := by
    rw [h.at?_eq ha]
    simp [portionsAt]

theorem Appends.refl (w : Writer) (fs : FileSystem) : w.Appends fs [] fs :=
  appends_of_makesDirectories (.refl fs)

/-- Files stay where they are, whatever comes later. -/
theorem Appends.portionsAt_append (h : w.Appends fs ps fs') (h' : w.Appends fs' more fs'') (a : List String) :
    w.portionsAt fs'' a (ps ++ more) = w.portionsAt fs' a ps ++ w.portionsAt fs'' a more := by
  have hkeep (p : Portion) (hp : p ∈ ps) :
      fs''.locate (w.pathFor p.layout.name) = fs'.locate (w.pathFor p.layout.name) := by
    obtain ⟨b, bytes, hb, -⟩ := h.places p hp
    rw [hb, h'.directories.locate (absurd · (w.not_endsInSlash_pathFor _)) hb]
  rw [portionsAt, List.filter_append]
  congr 1
  exact List.filter_congr fun p hp => by rw [hkeep p hp]

theorem Appends.trans (h : w.Appends fs ps fs') (h' : w.Appends fs' more fs'') : w.Appends fs (ps ++ more) fs'' where
  directories := h.directories.trans h'.directories
  places p hp := by
    rcases List.mem_append.1 hp with hp | hp
    · obtain ⟨a, bytes, ha, hfile⟩ := h.places p hp
      exact ⟨a, _, h'.directories.locate (absurd · (w.not_endsInSlash_pathFor _)) ha, h'.longer a bytes hfile⟩
    · exact h'.places p hp
  fresh a ha := by
    rw [h.portionsAt_append h' a]
    rcases h.fresh a ha with ⟨hnone, hfree | hdir⟩ | ⟨first, rest, hfirst, hfile⟩
    · rw [hnone]
      exact h'.fresh a hfree
    · have hdir' : fs''.at? a = some .directory := h'.directories.directory a hdir
      have hnone' : w.portionsAt fs'' a more = [] := by
        refine List.eq_nil_iff_forall_not_mem.2 fun p hp => ?_
        obtain ⟨hp, hloc⟩ := mem_portionsAt.1 hp
        obtain ⟨b, bytes, hb, hfile⟩ := h'.places p hp
        cases hloc.symm.trans hb
        cases hdir'.symm.trans hfile
      exact .inl ⟨by rw [hnone, hnone', List.append_nil], .inr hdir'⟩
    · refine .inr ⟨first, rest ++ w.portionsAt fs'' a more, by rw [hfirst, List.cons_append], ?_⟩
      rw [h'.longer a _ hfile, ← lines_append, List.cons_append, List.flatMap_append]
  longer a bytes ha := by
    rw [h'.longer a _ (h.longer a bytes ha), h.portionsAt_append h' a, List.flatMap_append, lines_append,
      List.append_assoc]

theorem writeTable_eq_ok {n : Nat} (h : w.writeTable p.layout p.records fs = .ok n fs') :
    fs.append (w.pathFor p.layout.name) (w.lines
      ((if fs.exists? (w.pathFor p.layout.name) then [] else [p.layout.columns]) ++ w.rowsOf p)) = .ok fs' := by
  rw [writeTable] at h
  rw [lines, rowsOf]
  split at h
  · next made hmade => exact hmade.trans (congrArg _ (EStateM.Result.ok.inj h).2)
  · cases h

theorem writeTable_appends {n : Nat} (h : w.writeTable p.layout p.records fs = .ok n fs') :
    w.Appends fs [p] fs' := by
  have happend := writeTable_eq_ok h
  have hd : fs.KeepsDirectories fs' := (FileSystem.sameDirectories_append happend).1
  have hthere := FileSystem.exists?_of_append happend
  obtain ⟨a, hloc, hnodir, hslash, hset⟩ := FileSystem.append_eq_ok happend
  have hloc' : fs'.locate (w.pathFor p.layout.name) = .ok a := hd.locate (absurd · hslash) hloc
  rw [FileSystem.content?_of_locate hloc] at hthere hset
  have hhere : fs'.at? a = some (.file (((fs.at? a).bind Entry.bytes?).getD [] ++ w.lines
      ((if ((fs.at? a).bind Entry.bytes?).isSome then [] else [p.layout.columns]) ++ w.rowsOf p))) := by
    rw [hset, FileSystem.at?_set fs (FileSystem.ne_nil_of_at? hnodir), if_pos rfl, hthere]
  have helsewhere (b : List String) (hb : b ≠ a) : fs'.at? b = fs.at? b ∧ w.portionsAt fs' b [p] = [] := by
    rw [hset, FileSystem.at?_set fs (FileSystem.ne_nil_of_at? hnodir), if_neg hb, ← hset]
    exact ⟨rfl, by simp [portionsAt, hloc', Except.toOption, Ne.symm hb]⟩
  have hself : w.portionsAt fs' a [p] = [p] := by
    simp [portionsAt, hloc', Except.toOption]
  refine ⟨hd, fun q hq => ?_, fun b hb => ?_, fun b bytes hb => ?_⟩
  · cases List.mem_singleton.1 hq
    exact ⟨a, _, hloc', hhere⟩
  · by_cases hba : b = a
    · subst hba
      refine .inr ⟨p, [], hself, ?_⟩
      rw [hhere, hself, hb]
      simp
    · obtain ⟨hsame, hnone⟩ := helsewhere b hba
      exact .inl ⟨hnone, .inl (hsame.trans hb)⟩
  · by_cases hba : b = a
    · subst hba
      rw [hhere, hself, hb]
      simp [Entry.bytes?]
    · obtain ⟨hsame, hnone⟩ := helsewhere b hba
      rw [hsame, hnone, hb]
      simp

theorem writeTable_advances (w : Writer) (p : Portion) :
    Advances w.Appends [p] (w.writeTable p.layout p.records) := by
  intro fs
  cases h : w.writeTable p.layout p.records fs with
  | ok n fs' => exact ⟨[p], List.prefix_rfl, writeTable_appends h, fun _ => rfl⟩
  | error e fs' =>
    have hsame : fs' = fs := by
      unfold writeTable at h
      dsimp only at h
      split at h
      · cases h
      · cases h
        rfl
    subst hsame
    exact ⟨[], List.nil_prefix, .refl w fs', nofun⟩

def portionOf (ls : List TableLayout) (e : String × List Record) : List Portion :=
  ((TableLayout.named? ls e.1).map fun l => ⟨l, e.2⟩).toList

theorem writeTables_advances (w : Writer) (ls : List TableLayout) (t : Tables) :
    Advances w.Appends (t.entries.flatMap (portionOf ls)) (w.writeTables ls t) := by
  rw [← List.append_nil (t.entries.flatMap (portionOf ls))]
  refine Advances.bind Appends.trans (advances_mapM Appends.trans (.refl w) fun e _ => ?_)
    fun _ counts _ _ => advances_pure (.refl w) (total counts)
  obtain ⟨table, rs⟩ := e
  rw [portionOf, TableLayout.named?]
  dsimp only
  cases ls.find? (·.name = table) with
  | none => exact advances_throw (Appends.refl w) [] (Error.unknownTable table)
  | some l => exact writeTable_advances w ⟨l, rs⟩

theorem openIn_advances (w : Writer) (directory : String) (format : Format) :
    Advances w.Appends [] (openIn directory format) := by
  intro fs
  have hmakes := FileSystem.makeDirectories_makes fs directory
  refine ⟨[], List.prefix_rfl, ?_, fun _ => rfl⟩
  rw [openIn]
  split
  · exact .refl _ fs
  · split
    · exact .refl _ fs
    · split
      · next made hmade =>
        rw [hmade] at hmakes
        exact appends_of_makesDirectories hmakes
      · next made fault hmade =>
        rw [hmade] at hmakes
        exact appends_of_makesDirectories hmakes

theorem openIn_eq_ok {directory : String} {format : Format} (h : openIn directory format fs = .ok w fs') :
    w = ⟨directory, format⟩ := by
  rw [openIn] at h
  split at h
  · cases h
  · split at h
    · cases h
    · split at h
      · exact (EStateM.Result.ok.inj h).1.symm
      · cases h

end Writer

structure Session where
  layouts : List TableLayout
  tables : List Tables

namespace Session

def portions (r : Session) : List Portion := r.tables.flatMap fun t => t.entries.flatMap (Writer.portionOf r.layouts)

def write (w : Writer) (r : Session) : Writing Unit := do
  let opened ← Writer.openIn w.directory w.format
  let _ ← r.tables.mapM (opened.writeTables r.layouts)

theorem write_advances (w : Writer) (r : Session) : Advances w.Appends r.portions (r.write w) := by
  refine (w.openIn_advances w.directory w.format).bind Writer.Appends.trans fun fs opened fs' h => ?_
  obtain rfl : opened = w := Writer.openIn_eq_ok h
  have hall := advances_mapM Writer.Appends.trans (.refl opened) fun t (_ : t ∈ r.tables) =>
    opened.writeTables_advances r.layouts t
  have hdone := hall.bind Writer.Appends.trans (f := fun _ => pure ()) fun _ _ _ _ =>
    advances_pure (.refl opened) ()
  rwa [List.append_nil] at hdone

def filesAfter (w : Writer) (fs : FileSystem) (rs : List Session) : FileSystem :=
  rs.foldl (fun fs r => left (r.write w fs)) fs

theorem filesAfter_appends (w : Writer) (fs : FileSystem) (rs : List Session) :
    ∃ done : List (List Portion), List.Forall₂ (fun r ps => ps <+: r.portions) rs done ∧
      ((∃ fs', rs.forM (write w) fs = .ok () fs') → done = rs.map portions) ∧
      w.Appends fs done.flatten (filesAfter w fs rs) := by
  induction rs generalizing fs with
  | nil => exact ⟨[], .nil, fun _ => rfl, .refl w fs⟩
  | cons r rs ih =>
    obtain ⟨ps, hpre, happends, hall⟩ := write_advances w r fs
    obtain ⟨done, hdone, hrest, hmore⟩ := ih (left (r.write w fs))
    refine ⟨ps :: done, .cons hpre hdone, ?_, happends.trans hmore⟩
    rintro ⟨fs', h⟩
    obtain ⟨_, fs₁, hr, hrs⟩ := bind_eq_ok.1 h
    rw [hr] at hrest
    rw [hall ⟨_, fs₁, hr⟩, hrest ⟨fs', hrs⟩, List.map_cons]

end Session

/-- However many sessions write into a directory, with whatever layouts, a file that they make holds one
header, the columns of the layout that it was made for, and below it all rows that were written to it,
each as long as its own layout. The values of a row stand under their columns exactly if its layout has
the columns of the first. A session writes all that it should, or the first part of it if it breaks off. -/
theorem sheets_keep_first_header (w : Writer) (fs : FileSystem) (rs : List Session) :
    ∃ (done : List (List Portion)) (fs' : FileSystem), fs' = Session.filesAfter w fs rs ∧
      List.Forall₂ (fun r ps => ps <+: r.portions) rs done ∧
      ((∃ fs₁, rs.forM (Session.write w) fs = .ok () fs₁) → done = rs.map Session.portions) ∧
      ∀ a, fs.at? a = none →
        w.portionsAt fs' a done.flatten = [] ∧ (fs'.at? a = none ∨ fs'.at? a = some .directory) ∨
        ∃ first rest, w.portionsAt fs' a done.flatten = first :: rest ∧
          fs'.at? a = some (.file (w.lines (first.layout.columns :: (first :: rest).flatMap w.rowsOf))) ∧
          ∀ p ∈ first :: rest, ∀ r ∈ p.records,
            (w.fieldsOf p.layout r).length = p.layout.columns.length ∧
            (Under first.layout.columns p.layout.columns (w.fieldsOf p.layout r) ↔
              p.layout.columns = first.layout.columns) := by
  obtain ⟨done, hdone, hall, happends⟩ := Session.filesAfter_appends w fs rs
  refine ⟨done, _, rfl, hdone, hall, fun a ha => ?_⟩
  rcases happends.fresh a ha with hnone | ⟨first, rest, hfirst, hfile⟩
  · exact .inl hnone
  · rw [hfirst] at hfile
    exact .inr ⟨first, rest, hfirst, hfile, fun p _ r _ => ⟨List.length_map _, w.under_fieldsOf_iff⟩⟩

def song : Record := (Record.empty.insert "side" (some "A")).insert "title" (some "Road")

/-- A song is written with two columns, then with the two in other order, and then with one. -/
def changedColumns : List Session :=
  let songs : Tables := Tables.empty.append "song" [song]
  [⟨[⟨"song", ["side", "title"], none⟩], [songs]⟩, ⟨[⟨"song", ["title", "side"], none⟩], [songs]⟩,
    ⟨[⟨"song", ["title"], none⟩], [songs]⟩]

def sheets : Writer := ⟨"sheets", {}⟩

def noFiles : FileSystem := ⟨[], [], none⟩

theorem sheets_keep_first_header_songs : noFiles.at? ["sheets", "song.csv"] = none ∧
    ∃ fs', fs' = Session.filesAfter sheets noFiles changedColumns ∧ ∃ first rest,
      sheets.portionsAt fs' ["sheets", "song.csv"] (changedColumns.map Session.portions).flatten = first :: rest ∧
      fs'.at? ["sheets", "song.csv"] =
        some (.file (sheets.lines (first.layout.columns :: (first :: rest).flatMap sheets.rowsOf))) := by
  have hfree : noFiles.at? ["sheets", "song.csv"] = none := rfl
  obtain ⟨fs₁, hsucceed, -⟩ := exists_of_succeeds (p := fun _ => true)
    (r := changedColumns.forM (Session.write sheets) noFiles) (by decide +kernel)
  have hthere : (((Session.filesAfter sheets noFiles changedColumns).at? ["sheets", "song.csv"]).bind
      Entry.bytes?).isSome = true := by
    decide +kernel
  obtain ⟨done, fs', hfs', -, hall, hplaces⟩ := sheets_keep_first_header sheets noFiles changedColumns
  rw [hall ⟨fs₁, hsucceed⟩] at hplaces
  rw [← hfs'] at hthere
  refine ⟨hfree, fs', hfs', ?_⟩
  rcases hplaces ["sheets", "song.csv"] hfree with ⟨-, hnone | hdir⟩ | ⟨first, rest, hfirst, hfile, -⟩
  · rw [hnone] at hthere
    cases hthere
  · rw [hdir] at hthere
    cases hthere
  · exact ⟨first, rest, hfirst, hfile⟩

/-- The header does not follow the columns: values come to stand under others, and rows are shorter. -/
theorem changed_columns_misalign : ∃ fs', changedColumns.forM (Session.write sheets) noFiles = .ok () fs' ∧
    fs'.at? ["sheets", "song.csv"] =
      some (.file (Text.Utf8.encode "side,title\r\nA,Road\r\nRoad,A\r\nRoad\r\n".toList)) ∧
    sheets.fieldsOf ⟨"song", ["title", "side"], none⟩ song = ["Road", "A"] ∧
    ¬Under ["side", "title"] ["title", "side"] ["Road", "A"] ∧
    sheets.fieldsOf ⟨"song", ["title"], none⟩ song = ["Road"] := by
  obtain ⟨fs', hsucceed, hfile⟩ := exists_of_succeeds (p := fun fs => fs.at? ["sheets", "song.csv"] =
      some (.file (Text.Utf8.encode "side,title\r\nA,Road\r\nRoad,A\r\nRoad\r\n".toList)))
    (r := changedColumns.forM (Session.write sheets) noFiles) (by decide +kernel)
  refine ⟨fs', hsucceed, of_decide_eq_true hfile, by decide +kernel, ?_, by decide +kernel⟩
  rintro ⟨-, hunder⟩
  exact absurd (hunder 0 "title" rfl) (by decide)

end Tabulate.Csv
