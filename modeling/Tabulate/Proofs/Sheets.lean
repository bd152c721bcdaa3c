import Tabulate.Csv.Writer
import Tabulate.Proofs.Effects
import Tabulate.Proofs.Files
import Tabulate.Proofs.Layouts
import Tabulate.Proofs.Tables

/-! Tables as CSV files. The rows of a table are appended to its own file, below a header if the file is
made, and no other file is touched. -/
namespace Tabulate.Csv.Writer

open Effects
open FileSystem (SameDirectories)
open TableLayout (named? named?_eq_some)

/-- What the file of a table holds when rows have been appended to it. -/
def sheet (w : Writer) (l : TableLayout) (before : Option (List UInt8)) (rs : List Record) :
    Option (List UInt8) :=
  if rs = [] then before
  else
    let header := if before.isSome then [] else [l.columns]
    some (before.getD [] ++ Text.Utf8.encode ((header ++ rs.map (w.fieldsOf l)).flatMap w.format.record))

theorem sheet_append (w : Writer) (l : TableLayout) (before : Option (List UInt8)) (rs more : List Record) :
    w.sheet l (w.sheet l before rs) more = w.sheet l before (rs ++ more) := by
  by_cases hrs : rs = []
  · simp [sheet, hrs]
  · by_cases hmore : more = []
    · simp [sheet, hmore]
    · simp [sheet, hrs, hmore, Text.Utf8.encode]

/-! ### The files of tables -/

theorem plain_fileName {table : String} (ht : FilePath.Plain table) : FilePath.Plain (table ++ ".csv") := by
  simpa [FilePath.Plain] using ht

theorem fileName_ne {table other : String} (h : other.toList.getLast? ≠ some 'v') : table ++ ".csv" ≠ other := by
  rintro rfl
  simp at h

theorem not_endsInSlash_pathFor (w : Writer) (table : String) :
    ¬FileSystem.endsInSlash (w.pathFor table) := by
  have hlast (cs : List Char) : (cs ++ (table ++ ".csv").toList).getLast? ≠ some '/' := by simp
  rw [FileSystem.endsInSlash, pathFor, FilePath.join]
  split
  · exact hlast []
  · split
    · rw [String.toList_append]
      exact hlast _
    · rw [String.toList_append]
      exact hlast _

/-- Different tables have their files at different places. -/
theorem eq_of_locate_pathFor (w : Writer) {fs : FileSystem} {s t : String} {a : List String}
    (hs : FilePath.Plain s) (ht : FilePath.Plain t) (has : fs.locate (w.pathFor s) = .ok a)
    (hat : fs.locate (w.pathFor t) = .ok a) : s = t := by
  have hempty (table : String) : (table ++ ".csv").isEmpty = false := by simp
  obtain ⟨b, hb, rfl⟩ := FileSystem.locate_join (plain_fileName hs) (hempty s) (fileName_ne (by decide))
    (fileName_ne (by decide)) has
  obtain ⟨c, hc, hbc⟩ := FileSystem.locate_join (plain_fileName ht) (hempty t) (fileName_ne (by decide))
    (fileName_ne (by decide)) hat
  have hname : s ++ ".csv" = t ++ ".csv" := by simpa using (List.append_inj' hbc rfl).2
  simpa [← String.toList_inj] using hname

/-! ### Writing -/

structure Wrote (w : Writer) (ls : List TableLayout) (rows : String → List Record) (fs fs' : FileSystem) :
    Prop where
  directories : SameDirectories fs fs'
  sheets : ∀ table l, named? ls table = some l →
    fs'.content? (w.pathFor table) = w.sheet l (fs.content? (w.pathFor table)) (rows table)
  others : ∀ a, (∀ l ∈ ls, fs.locate (w.pathFor l.name) ≠ .ok a) → fs'.at? a = fs.at? a

section Wrote
variable {w : Writer} {ls : List TableLayout} {rows more : String → List Record} {a b c : FileSystem}

theorem Wrote.refl (w : Writer) (ls : List TableLayout) (fs : FileSystem) : w.Wrote ls (fun _ => []) fs fs where
  directories := .refl fs
  sheets _ _ _ := rfl
  others _ _ := rfl

theorem Wrote.trans (h : w.Wrote ls rows a b) (h' : w.Wrote ls more b c) :
    w.Wrote ls (fun k => rows k ++ more k) a c where
  directories := h.directories.trans h'.directories
  sheets table l hl := by rw [h'.sheets table l hl, h.sheets table l hl, sheet_append]
  others p hp := by
    have hp' (l : TableLayout) (hl : l ∈ ls) : b.locate (w.pathFor l.name) ≠ .ok p :=
      mt (h.directories.locate_iff (w.not_endsInSlash_pathFor l.name)).1 (hp l hl)
    rw [h'.others p hp', h.others p hp]

variable (plain : ∀ l ∈ ls, FilePath.Plain l.name)
include plain

theorem writeTable_wrote {l : TableLayout} {rs : List Record} {n : Nat} (hl : named? ls l.name = some l)
    (hrs : rs ≠ []) (h : w.writeTable l rs a = .ok n b) : w.Wrote ls (Tables.only l.name rs) a b := by
  have hmem : l ∈ ls := (named?_eq_some hl).1
  rw [writeTable] at h
  cases hf : a.append (w.pathFor l.name) (Text.Utf8.encode
      (((if a.exists? (w.pathFor l.name) then [] else [l.columns]) ++ rs.map (w.fieldsOf l)).flatMap
        w.format.record)) with
  | error fault =>
    rw [hf] at h
    cases h
  | ok fs =>
    rw [hf] at h
    obtain rfl : fs = b := (EStateM.Result.ok.inj h).2
    have hd := FileSystem.sameDirectories_append hf
    refine ⟨hd, fun table l' hl' => ?_, fun p hp => FileSystem.at?_append hf (hp l hmem)⟩
    by_cases ht : table = l.name
    · subst ht
      obtain rfl : l = l' := Option.some.inj (hl.symm.trans hl')
      rw [FileSystem.content?_append hf, FileSystem.exists?_of_append hf, Tables.only, if_pos rfl, sheet, if_neg hrs]
    · obtain ⟨hmem', rfl⟩ := named?_eq_some hl'
      have hplain := plain l' hmem'
      have hother : fs.content? (w.pathFor l'.name) = a.content? (w.pathFor l'.name) :=
        hd.content? (w.not_endsInSlash_pathFor l'.name) fun p hp => FileSystem.at?_append hf fun hl =>
          ht (w.eq_of_locate_pathFor hplain (plain l hmem) hp hl)
      rw [hother, Tables.only, if_neg ht, sheet, if_pos rfl]

/-- Writing tables, none of which is empty, appends their rows to their files. -/
theorem writeTables_wrote {t : Tables} {n : Nat} (ht : ∀ table rs, t.get? table = some rs → rs ≠ [])
    (h : w.writeTables ls t a = .ok n b) : w.Wrote ls t.rows a b := by
  obtain ⟨counts, b', hall, hp⟩ := bind_eq_ok.1 h
  cases hp
  refine Tables.rel_of_mapM (.refl w ls) Wrote.trans t.nodup_keys ?_ hall
  intro e he fs m fs' hw
  have hne : e.2 ≠ [] := ht e.1 e.2 ((t.mem_entries_iff ..).1 he)
  cases hl : ls.find? (·.name = e.1) with
  | none =>
    simp only [hl] at hw
    exact absurd hw throw_ne_ok
  | some l =>
    simp only [hl] at hw
    have hname : l.name = e.1 := (named?_eq_some hl).2
    have hfound : named? ls l.name = some l := by
      rw [hname]
      exact hl
    exact hname ▸ writeTable_wrote plain hfound hne hw

end Wrote

theorem writeTable_fault {w : Writer} {l : TableLayout} {rs : List Record} {fs fs' : FileSystem} {e : Error}
    (h : w.writeTable l rs fs = .error e fs') : ∃ path fault, e = .io path fault := by
  unfold writeTable at h
  dsimp only at h
  split at h
  · cases h
  · cases h
    exact ⟨_, _, rfl⟩

/-- Where every table has a layout, nothing but the files can be at fault. -/
theorem writeTables_fault {w : Writer} {ls : List TableLayout} {t : Tables} {fs fs' : FileSystem} {e : Error}
    (ht : ∀ table ∈ t.keys, (named? ls table).isSome) (h : w.writeTables ls t fs = .error e fs') :
    ∃ path fault, e = .io path fault := by
  rcases bind_eq_error.1 h with h | ⟨counts, fs₁, -, hp⟩
  · obtain ⟨as, x, bs, ys, fs₁, hentries, -, hw⟩ := mapM_eq_error h
    have hx : x ∈ t.entries := by simp [hentries]
    obtain ⟨l, hl⟩ := Option.isSome_iff_exists.1 (ht x.1 (List.mem_map.2 ⟨x, hx, rfl⟩))
    rw [named?] at hl
    simp only [hl] at hw
    exact writeTable_fault hw
  · cases hp

end Tabulate.Csv.Writer
