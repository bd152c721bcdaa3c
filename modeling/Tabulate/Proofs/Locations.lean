import Tabulate.Proofs.Outputs
import Tabulate.Proofs.Schemes
import Tabulate.Proofs.Ways

/-! Where the database of an output directory is. A store opens the file that the path of its URL leads to, and makes
the directories on the way there. That is the file of the output directory if the path leads to the same place over the
same missing directories; for this the directory must not look like a URL. -/
namespace Tabulate

open FilePath OutputTarget

def Entry.holdsDatabase : Entry → Bool
  | file bytes => bytes.isEmpty
  | directory => false
  | database _ => true

namespace FileSystem

structure Holds (fs : FileSystem) (path : String) : Prop extends fs.Passable path where
  place : ∀ e ∈ fs.at? (fs.settled path), e.holdsDatabase = true
  apart : fs.settled path ∉ fs.way path

end FileSystem

namespace Store

/-- The database of a store is in the file that a path leads to, before and after it is opened. Nothing else has
changed but the directories on the way there, which have been made where nothing was. -/
structure LiesAt (s : Store) (path : String) (fs fs' : FileSystem) : Prop where
  workingDirectory : fs'.workingDirectory = fs.workingDirectory
  tested : ∀ a, fs.locate path = .ok a → s.address = some a
  address : s.address = some (fs.settled path)
  database : s.database = fs.databaseAt s.address
  located : fs'.locate path = .ok (fs.settled path)
  saved : fs'.at? (fs.settled path) = some (.database s.database)
  rest : ∀ a, a ≠ fs.settled path →
    fs'.at? a = fs.at? a ∨ fs.at? a = none ∧ fs'.at? a = some .directory ∧ a ∈ fs.way path

/-- What was no directory is one afterwards exactly if it is on the way. -/
theorem LiesAt.mem_way_iff {s : Store} {path : String} {fs fs' : FileSystem} (h : s.LiesAt path fs fs')
    {a : List String} (ha : fs.at? a ≠ some .directory) : a ∈ fs.way path ↔ fs'.at? a = some .directory := by
  have hway : fs'.way path = fs.way path := by
    rw [FileSystem.way, FileSystem.origin, h.workingDirectory, FileSystem.way, FileSystem.origin]
  constructor
  · exact fun hmem => FileSystem.directory_of_mem_way h.located a (hway ▸ hmem)
  · intro hdir
    have hne : a ≠ fs.settled path := by
      rintro rfl
      rw [h.saved] at hdir
      cases hdir
    rcases h.rest a hne with hsame | hnew
    · exact absurd (hsame.symm.trans hdir) ha
    · exact hnew.2.2

end Store

namespace StoreConfig

/-- What is opened for a URL is what the URL is as a path: the path that it names is on this machine and leads to the
same place, over the same directories as far as they are missing, and these are made. -/
structure Follows (c : StoreConfig) (fs : FileSystem) : Prop where
  near : isRemote c.path = false
  place : fs.settled c.path = fs.settled c.url
  way : ∀ a, fs.at? a ≠ some .directory → (a ∈ fs.way c.path ↔ a ∈ fs.way c.url)
  made : c.isInMemory = true → ∀ a ∈ fs.way c.url, fs.at? a = some .directory

/-- The database is opened, in the file that a path leads to. -/
def OpensAt (c : StoreConfig) (path : String) (fs : FileSystem) : Prop :=
  ∃ s fs', Store.openAt c fs = (.ok s, fs') ∧ s.LiesAt path fs fs'

variable {c : StoreConfig} {fs fs' : FileSystem} {s : Store}

/-! ### What is opened -/

theorem not_endsInSlash {path : String} (h : EndsInName path.toList) : ¬FileSystem.endsInSlash path := by
  rw [FileSystem.endsInSlash, h.getLast?]
  decide

/-- A path that ends in the name of a database is opened if it is on this machine and leads to where a database is or
can be made. -/
theorem openDatabase_file_iff {path : String} (h : EndsInName path.toList) {d : Database}
    {address : Option (List String)} : fs.openDatabase path = .ok (d, address) ↔
      isRemote path = false ∧ fs.locate path = .ok (fs.settled path) ∧
      (∀ e ∈ fs.at? (fs.settled path), e.holdsDatabase = true) ∧
      address = some (fs.settled path) ∧ d = fs.databaseAt (some (fs.settled path)) := by
  have hmemory : path ≠ ":memory:" := by
    intro hmemory
    have hlast := h.getLast?
    rw [hmemory] at hlast
    exact absurd hlast (by decide)
  have hslash : ¬path.toList.getLast? = some '/' := not_endsInSlash h
  rw [FileSystem.openDatabase, h.isEmpty_eq_false, decide_eq_false hmemory, decide_eq_false hslash, Bool.or_false,
    Bool.or_false, if_neg Bool.false_ne_true]
  cases isRemote path with
  | true => simp
  | false =>
    cases hl : fs.locate path with
    | error fault => simp
    | ok a =>
      obtain rfl := FileSystem.eq_settled hl
      have hsame (found : Database) : found = d ∧ some (fs.settled path) = address ↔
          address = some (fs.settled path) ∧ d = found := by
        rw [and_comm, eq_comm, @eq_comm _ d]
      cases ha : fs.at? (fs.settled path) with
      | none => simpa [FileSystem.databaseAt, ha] using hsame .empty
      | some e =>
        cases e with
        | directory => simp [ha, Entry.holdsDatabase]
        | database content => simpa [FileSystem.databaseAt, ha, Entry.holdsDatabase] using hsame content
        | file bytes =>
          cases bytes with
          | nil => simpa [FileSystem.databaseAt, ha, Entry.holdsDatabase] using hsame .empty
          | cons byte bytes => simp [ha, Entry.holdsDatabase]

def prepared (c : StoreConfig) (fs : FileSystem) : FileSystem × Except IoFault Unit :=
  match c.isInMemory, parent? c.path with
  | false, some parent => fs.makeDirectories parent
  | _, _ => (fs, .ok ())

theorem openAt_eq (hn : 0 < c.maxVars) (h : EndsInName c.url.toList) : Store.openAt c fs =
    match c.prepared fs with
    | (made, .error fault) => (.error (.io fault), made)
    | (made, .ok ()) =>
      match made.openDatabase c.path with
      | .error e => (.error e, made)
      | .ok (database, address) => (.ok ⟨c, address, database, []⟩, Store.save ⟨c, address, database, []⟩ made) := by
  have hurl := (endsInName_trimmedUrl h).isEmpty_eq_false
  have hnone : fs.makeDirectories "" = (fs, .ok ()) := rfl
  rw [Store.openAt, hurl, if_neg Bool.false_ne_true, if_neg (Nat.pos_iff_ne_zero.1 hn)]
  split
  next outcome made hpair =>
  have hprepared : c.prepared fs = (made, outcome) := by
    rw [prepared]
    split at hpair
    · next parent hmemory hparent =>
      rw [Option.filter_eq_some_iff] at hparent
      rw [hmemory, hparent.1]
      exact (Prod.swap_swap _).symm.trans (congrArg Prod.swap hpair)
    · next hother =>
      cases hpair
      cases hmemory : c.isInMemory with
      | true => rfl
      | false =>
        cases hparent : parent? c.path with
        | none => rfl
        | some parent =>
          have hempty : parent.isEmpty = true := by
            by_contra hne
            exact hother parent hmemory (by rw [hparent, Option.filter_some, Bool.eq_false_iff.2 hne]; rfl)
          rw [String.isEmpty_iff.1 hempty]
          exact hnone
  rw [hprepared]
  cases outcome with
  | error fault => rfl
  | ok _ => cases hdatabase : made.openDatabase c.path <;> simp only [hdatabase]

theorem prepared_makes (c : StoreConfig) (fs : FileSystem) : fs.MakesDirectories (c.prepared fs).1 := by
  rw [prepared]
  split
  · exact FileSystem.makeDirectories_makes fs _
  · exact .refl fs

/-- What is made is on the way of the path, and nothing is for a URL that speaks of memory. -/
theorem at?_prepared (h : EndsInName c.url.toList) (fs : FileSystem) (a : List String) :
    (c.prepared fs).1.at? a = fs.at? a ∨ c.isInMemory = false ∧ a ∈ fs.way c.path := by
  obtain ⟨-, -, -, -, hend, -⟩ := exists_mark h
  obtain ⟨texts, hpieces⟩ := hend.exists_pieces
  rw [prepared]
  split
  · next parent hmemory hparent =>
    exact (FileSystem.at?_makeDirectories_file hpieces isName_databaseName hparent a).imp_right (.intro hmemory)
  · exact .inl rfl

theorem prepared_succeeds (h : EndsInName c.url.toList) (hpass : fs.Passable c.path)
    (hmade : c.isInMemory = true → ∀ a ∈ fs.way c.path, fs.at? a = some .directory) :
    ∃ made, c.prepared fs = (made, .ok ()) ∧ ∀ a ∈ fs.way c.path, made.at? a = some .directory := by
  obtain ⟨-, -, -, -, hend, -⟩ := exists_mark h
  obtain ⟨texts, hpieces⟩ := hend.exists_pieces
  obtain ⟨front, ps, -, -, hparent, -⟩ := FileSystem.exists_parent_file hpieces isName_databaseName
  cases hmemory : c.isInMemory with
  | true => exact ⟨fs, by rw [prepared, hmemory], hmade hmemory⟩
  | false =>
    rw [prepared, hmemory, hparent]
    exact FileSystem.makeDirectories_file_succeeds hpieces isName_databaseName hparent hpass

theorem settled_prepared (c : StoreConfig) (fs : FileSystem) (path : String) :
    (c.prepared fs).1.settled path = fs.settled path := by
  rw [FileSystem.settled, (prepared_makes c fs).origin, FileSystem.settled]

/-- A store that is opened lies at the path of its URL. -/
theorem liesAt_of_openAt (hn : 0 < c.maxVars) (h : EndsInName c.url.toList) (hopen : Store.openAt c fs = (.ok s, fs')) :
    isRemote c.path = false ∧ s.LiesAt c.path fs fs' ∧
      (c.isInMemory = true → ∀ a, a ≠ fs.settled c.path → fs'.at? a = fs.at? a) := by
  obtain ⟨-, -, -, -, hend, -⟩ := exists_mark h
  have hmakes := prepared_makes c fs
  have hframe := at?_prepared h fs
  have hsettled := settled_prepared c fs c.path
  rw [openAt_eq hn h] at hopen
  cases hprepared : c.prepared fs with
  | mk made outcome =>
    rw [hprepared] at hopen hmakes hframe hsettled
    cases outcome with
    | error fault => cases hopen
    | ok _ =>
      dsimp only at hopen hmakes hframe hsettled
      cases hdatabase : made.openDatabase c.path with
      | error e =>
        rw [hdatabase] at hopen
        cases hopen
      | ok opened =>
        obtain ⟨d, address⟩ := opened
        rw [hdatabase] at hopen
        cases hopen
        obtain ⟨hnear, hlocate, hplace, rfl, hcontent⟩ := (openDatabase_file_iff hend).1 hdatabase
        rw [hsettled] at hlocate hplace hcontent ⊢
        have hfile : made.at? (fs.settled c.path) ≠ some .directory :=
          fun hdir => absurd (hplace _ hdir) Bool.false_ne_true
        have hat (a : List String) : (Store.save ⟨c, some (fs.settled c.path), d, []⟩ made).at? a =
            if a = fs.settled c.path then some (.database d) else made.at? a :=
          FileSystem.at?_set made (FileSystem.ne_nil_of_at? hfile) _ a
        have hother (a : List String) (ha : a ≠ fs.settled c.path) :
            (Store.save ⟨c, some (fs.settled c.path), d, []⟩ made).at? a = made.at? a := by
          rw [hat, if_neg ha]
        refine ⟨hnear, ⟨?_, fun a ha => ?_, rfl, ?_, ?_, ?_, fun a ha => ?_⟩, fun hmemory a ha => ?_⟩
        · rw [Store.workingDirectory_save, hmakes.workingDirectory]
        · rw [FileSystem.eq_settled ha]
        · exact hcontent.trans (hmakes.databaseAt _)
        · exact (FileSystem.keepsDirectories_set hfile _).locate (absurd · (not_endsInSlash hend)) hlocate
        · rw [hat, if_pos rfl]
        · rw [hother a ha]
          rcases hframe a with hsame | ⟨-, hway⟩
          · exact .inl hsame
          · exact (hmakes.made a).imp_right fun hnew => ⟨hnew.1, hnew.2, hway⟩
        · rw [hother a ha]
          exact (hframe a).resolve_right fun hnew => by simp [hmemory] at hnew

/-- Where a database can be, one is opened; for a URL that speaks of memory the directories must be there. -/
theorem openAt_succeeds (hn : 0 < c.maxVars) (h : EndsInName c.url.toList) (hnear : isRemote c.path = false)
    (hholds : fs.Holds c.path) (hmade : c.isInMemory = true → ∀ a ∈ fs.way c.path, fs.at? a = some .directory) :
    ∃ s fs', Store.openAt c fs = (.ok s, fs') := by
  obtain ⟨-, -, -, -, hend, -⟩ := exists_mark h
  obtain ⟨made, hprepared, hdirs⟩ := prepared_succeeds h hholds.toPassable hmade
  have hmakes := prepared_makes c fs
  have hframe := at?_prepared h fs (fs.settled c.path)
  have hsettled := settled_prepared c fs c.path
  rw [hprepared] at hmakes hframe hsettled
  dsimp only at hmakes hframe hsettled
  have hlocate : made.locate c.path = .ok (made.settled c.path) := by
    refine (hholds.mono hmakes).locate_eq_ok hend.isEmpty_eq_false (absurd · (not_endsInSlash hend)) fun a ha => ?_
    refine hdirs a ?_
    rwa [FileSystem.way, hmakes.origin] at ha
  -- the place of the file is not on the way, so no directory has been made there
  have hsame := hframe.resolve_right fun hnew => hholds.apart hnew.2
  have hdatabase : made.openDatabase c.path =
      .ok (made.databaseAt (some (made.settled c.path)), some (made.settled c.path)) := by
    refine (openDatabase_file_iff hend).2 ⟨hnear, hlocate, ?_, rfl, rfl⟩
    rw [hsettled, hsame]
    exact hholds.place
  rw [openAt_eq hn h, hprepared]
  dsimp only
  rw [hdatabase]
  exact ⟨_, _, rfl⟩

/-! ### What the URL is as a path -/

/-- What can be made at the path that a URL is can be made at the path that it names, if that follows it. -/
theorem Follows.holds (hfollows : c.Follows fs) (h : EndsInName c.url.toList) (hholds : fs.Holds c.url) :
    fs.Holds c.path := by
  obtain ⟨mark, hurl, hmark, -, -, -⟩ := exists_mark h
  refine { nul := ?_, short := short_behind_mark hurl hmark hholds.short, begins := ?_, free := fun a ha => ?_,
           place := ?_, apart := fun ha => ?_ }
  · have hnul := hholds.nul
    rw [List.contains_eq_mem, decide_eq_false_iff_not, hurl] at hnul
    rw [List.contains_eq_mem, decide_eq_false_iff_not]
    exact fun hmem => hnul (List.mem_append_right mark hmem)
  · have hbegins := hholds.begins
    rw [FileSystem.origin] at hbegins ⊢
    split
    · rfl
    · next hrelative =>
      rwa [if_neg fun habsolute => hrelative (isAbsolute_behind_mark hurl hmark habsolute)] at hbegins
  · by_cases hdir : fs.at? a = some .directory
    · exact .inr hdir
    · exact hholds.free a ((hfollows.way a hdir).1 ha)
  · rw [hfollows.place]
    exact hholds.place
  · rw [hfollows.place] at ha
    by_cases hdir : fs.at? (fs.settled c.url) = some .directory
    · exact absurd (hholds.place _ hdir) Bool.false_ne_true
    · exact hholds.apart ((hfollows.way _ hdir).1 ha)

/-- What lies at a path lies at another one that leads to the same place over the same missing directories. -/
theorem Follows.liesAt (hfollows : c.Follows fs) (h : EndsInName c.url.toList) (hholds : fs.Holds c.url)
    (hlies : s.LiesAt c.path fs fs') : s.LiesAt c.url fs fs' := by
  have hplace := hfollows.place
  have hsame (path : String) : fs'.origin path = fs.origin path := by
    rw [FileSystem.origin, hlies.workingDirectory, FileSystem.origin]
  have hdirs : ∀ a ∈ fs.way c.url, fs'.at? a = some .directory := by
    intro a ha
    by_cases hdir : fs.at? a = some .directory
    · have hne : a ≠ fs.settled c.path := by
        intro heq
        rw [heq, hplace] at hdir
        exact absurd (hholds.place _ hdir) Bool.false_ne_true
      rcases hlies.rest a hne with hkept | ⟨hnone, -⟩
      · rw [hkept, hdir]
      · rw [hnone] at hdir
        cases hdir
    · exact (hlies.mem_way_iff hdir).1 ((hfollows.way a hdir).2 ha)
  refine ⟨hlies.workingDirectory, fun a ha => ?_, ?_, hlies.database, ?_, ?_, fun a ha => ?_⟩
  · rw [hlies.address, hplace, FileSystem.eq_settled ha]
  · rw [hlies.address, hplace]
  · refine FileSystem.locate_eq_ok.2 ⟨hholds.nul, h.isEmpty_eq_false, ?_, (absurd · (not_endsInSlash h))⟩
    rw [hsame]
    exact FileSystem.foldlM_descend_eq_ok.2 ⟨hdirs, hholds.short, rfl⟩
  · rw [← hplace]
    exact hlies.saved
  · rw [← hplace] at ha
    rcases hlies.rest a ha with hkept | ⟨hnone, hdir, hway⟩
    · exact .inl hkept
    · have hmissing : fs.at? a ≠ some .directory := by simp [hnone]
      exact .inr ⟨hnone, hdir, (hfollows.way a hmissing).1 hway⟩

/-- The database is opened at the path that the URL is exactly if the path that it names follows that one. -/
theorem opensAt_url_iff (hn : 0 < c.maxVars) (h : EndsInName c.url.toList) (hholds : fs.Holds c.url) :
    c.OpensAt c.url fs ↔ c.Follows fs := by
  constructor
  · rintro ⟨s, fs', hopen, hlies⟩
    obtain ⟨hnear, hnamed, hmemory⟩ := liesAt_of_openAt hn h hopen
    have hplace := Option.some.inj (hnamed.address.symm.trans hlies.address)
    have hway (a : List String) (ha : fs.at? a ≠ some .directory) : a ∈ fs.way c.path ↔ a ∈ fs.way c.url :=
      (hnamed.mem_way_iff ha).trans (hlies.mem_way_iff ha).symm
    refine ⟨hnear, hplace, hway, fun hinside a ha => ?_⟩
    by_contra hdir
    have hnew := (hlies.mem_way_iff hdir).1 ha
    have hne : a ≠ fs.settled c.path := by
      intro heq
      rw [heq] at hnew
      rw [hnamed.saved] at hnew
      cases hnew
    exact hdir ((hmemory hinside a hne).symm.trans hnew)
  · intro hfollows
    have hheld := hfollows.holds h hholds
    obtain ⟨s, fs', hopen⟩ := openAt_succeeds hn h hfollows.near hheld fun hinside a ha => by
      by_contra hdir
      exact hdir (hfollows.made hinside a ((hfollows.way a hdir).1 ha))
    exact ⟨s, fs', hopen, hfollows.liesAt h hholds (liesAt_of_openAt hn h hopen).2.1⟩

/-! ### Directories that are taken for URLs -/

def Nameable (path : String) : Prop :=
  path.toList.contains (Char.ofNat 0) = false ∧ ∀ p ∈ pieces path, p.utf8ByteSize ≤ 255

instance (path : String) : Decidable (Nameable path) := inferInstanceAs (Decidable (_ ∧ _))

theorem follows_of_unmarked {directory : String} (hd : Unmarked directory) (n : Nat) (fs : FileSystem) :
    (inDirectory directory n).Follows fs := by
  obtain ⟨hpath, hnear, hmemory⟩ := (unmarked_iff directory n).1 hd
  refine ⟨by rwa [hpath], by rw [hpath], fun a _ => by rw [hpath], fun hinside => ?_⟩
  rw [hmemory] at hinside
  cases hinside

theorem pieces_inDirectory (directory : String) (n : Nat) :
    pieces (inDirectory directory n).url = pieces directory ++ [databaseName] := by
  rw [url_inDirectory, pieces_join (isAbsolute_of_plain isName_databaseName.2.1), pieces_databaseName]

section Nothing
variable {directory : String} {n : Nat}

theorem origin_nothing (path : String) : (FileSystem.ofDirectories []).origin path = [] := by
  rw [FileSystem.origin]
  split <;> rfl

theorem at?_nothing (a : List String) :
    (FileSystem.ofDirectories []).at? a = if a.isEmpty then some .directory else none := rfl

theorem settled_nothing : (FileSystem.ofDirectories []).settled (inDirectory directory n).url =
    (pieces directory).foldl settle [] ++ [databaseName] := by
  have hname : settle ((pieces directory).foldl settle []) databaseName =
      (pieces directory).foldl settle [] ++ [databaseName] := by
    rw [settle, if_neg (by decide), if_neg (by decide)]
  rw [FileSystem.settled, origin_nothing, pieces_inDirectory, List.foldl_append, List.foldl_cons, hname]
  rfl

/-- Where nothing is yet, a database can be made in every directory that can be named. -/
theorem holds_nothing (hup : ∀ p ∈ pieces directory, p ≠ "..") (hname : Nameable (inDirectory directory n).url) :
    (FileSystem.ofDirectories []).Holds (inDirectory directory n).url := by
  refine { nul := hname.1, short := hname.2, begins := ?_, free := fun a _ => ?_, place := ?_, apart := fun ha => ?_ }
  · rw [origin_nothing]
    rfl
  · rw [FileSystem.Free, at?_nothing]
    split
    · exact .inr rfl
    · exact .inl rfl
  · rw [settled_nothing, at?_nothing, if_neg (by simp)]
    simp
  · rw [FileSystem.way, origin_nothing, pieces_inDirectory] at ha
    have hlength := length_le_of_mem_visited hup ha
    rw [settled_nothing, List.length_append] at hlength
    exact absurd hlength (by simp)

/-- A mark is part of the first name, so without it a path that goes up nowhere leads elsewhere. -/
theorem mark_eq_nil {mark : List Char} {url path : String} (hurl : url.toList = mark ++ path.toList)
    (hslash : '/' ∉ mark) (hdot : '.' ∉ mark) (hup : ∀ p ∈ pieces url, p ≠ "..")
    (h : (pieces path).foldl settle [] = (pieces url).foldl settle []) : mark = [] := by
  by_contra hmark
  obtain ⟨x, texts, hx, hpath, hpieces⟩ := exists_first_piece hurl
  have hplain : Plain (String.ofList (mark ++ x)) := by simp [Plain, hslash, hx]
  have hfirst : pieces (String.ofList (mark ++ x)) = [String.ofList (mark ++ x)] :=
    pieces_of_plain hplain (by simp [hmark])
  have hne (dots : List Char) (hdots : ∀ c ∈ dots, c = '.') : String.ofList (mark ++ x) ≠ String.ofList dots := by
    intro heq
    have htext : mark ++ x = dots := String.ofList_injective heq
    obtain ⟨c, rest, rfl⟩ := List.exists_cons_of_ne_nil hmark
    obtain rfl := hdots c (by simp [← htext])
    exact hdot List.mem_cons_self
  have htexts : ∀ t ∈ texts, t ≠ ".." := fun t ht => hup t (by rw [hpieces]; exact List.mem_append_right _ ht)
  have hname : settle [] (String.ofList (mark ++ x)) = [String.ofList (mark ++ x)] := by
    rw [settle, if_neg (hne ['.'] (by simp)), if_neg (hne ['.', '.'] (by simp))]
    rfl
  rw [hpath, hpieces, hfirst, List.foldl_append, List.foldl_append, foldl_settle_of_no_up htexts,
    foldl_settle_of_no_up htexts, List.append_left_inj, List.foldl_cons, List.foldl_nil, hname] at h
  -- what is left of the first piece leads nowhere, or to another name
  cases x with
  | nil => cases h
  | cons y x =>
    have hplain' : Plain (String.ofList (y :: x)) := by simpa [Plain] using hx
    rw [pieces_of_plain hplain' (by simp), List.foldl_cons, List.foldl_nil, settle] at h
    split at h
    · cases h
    · split at h
      · cases h
      · have heq : String.ofList (y :: x) = String.ofList (mark ++ y :: x) := by simpa using h
        have htext := String.ofList_injective heq
        exact hmark (List.self_eq_append_left.1 htext)

theorem not_inMemory_of_follows (hup : ∀ p ∈ pieces directory, p ≠ "..")
    (hfollows : (inDirectory directory n).Follows (FileSystem.ofDirectories []))
    (hblank : (inDirectory directory n).url.toList.head?.any Text.isBlank = false)
    (hfile : Text.startsWith "file:".toList (inDirectory directory n).url.toList = false) :
    (inDirectory directory n).isInMemory = false := by
  rw [Bool.eq_false_iff]
  intro hinside
  have hspeaks := hinside
  rw [isInMemory_eq (endsInName_inDirectory directory n) hblank hfile, contains_iff] at hspeaks
  -- the text is not in the name of the database, so there is a directory on the way
  have hletter : 'm' ∈ (inDirectory directory n).url.toList := hspeaks.subset (by decide)
  obtain ⟨piece, hpiece, hmem⟩ := (mem_path_iff (by decide) _).1 hletter
  rw [pieces_inDirectory, List.mem_append, List.mem_singleton] at hpiece
  have hpiece : piece ∈ pieces directory := hpiece.resolve_right fun heq => absurd (heq ▸ hmem) (by decide)
  have hdot : piece ≠ "." := fun heq => absurd (heq ▸ hmem) (by decide)
  have hway : (pieces directory).foldl settle [] ∈ (FileSystem.ofDirectories []).way (inDirectory directory n).url := by
    rw [FileSystem.way, origin_nothing, pieces_inDirectory]
    exact foldl_settle_mem_visited [] (pieces directory) databaseName
  have hdir := hfollows.made hinside _ hway
  rw [foldl_settle_of_no_up hup, List.nil_append, at?_nothing] at hdir
  have hne : piece ∈ (pieces directory).filter (· ≠ ".") := List.mem_filter.2 ⟨hpiece, decide_eq_true hdot⟩
  rw [List.isEmpty_eq_false_iff.2 (List.ne_nil_of_mem hne)] at hdir
  cases hdir

theorem unmarked_of_follows (hup : ∀ p ∈ pieces directory, p ≠ "..") (hname : Nameable (inDirectory directory n).url)
    (h : ∀ fs : FileSystem, fs.Holds (inDirectory directory n).url → (inDirectory directory n).Follows fs) :
    Unmarked directory := by
  have hfollows := h (FileSystem.ofDirectories []) (holds_nothing hup hname)
  obtain ⟨mark, hurl, hslash, hdot, -, hnone⟩ := exists_mark (endsInName_inDirectory directory n)
  have hnames : ∀ p ∈ pieces (inDirectory directory n).url, p ≠ ".." := by
    rw [pieces_inDirectory]
    exact List.forall_mem_append.2 ⟨hup, List.forall_mem_singleton.2 isName_databaseName.2.2.2⟩
  have hplace := hfollows.place
  rw [FileSystem.settled, FileSystem.settled, origin_nothing, origin_nothing] at hplace
  have hmark := mark_eq_nil hurl hslash hdot hnames hplace
  have hpath : (inDirectory directory n).path = (inDirectory directory n).url := by
    rw [hmark, List.nil_append] at hurl
    exact (String.toList_inj.1 hurl).symm
  obtain ⟨hblank, hfile⟩ := hnone.1 hmark
  have hnear := hfollows.near
  rw [hpath] at hnear
  exact (unmarked_iff directory n).2 ⟨hpath, hnear, not_inMemory_of_follows hup hfollows hblank hfile⟩

end Nothing

/-! ### The database of a run -/

/-- The output of a run is the store that is opened in its directory, and the run warns exactly if something is at the
path that the URL is. -/
theorem openSink_inDirectory {r : RunConfig} {directory : String} {ls : List TableLayout} {sink : Sink} {s s' : Scene}
    (hr : r.output = sqliteIn directory) (h : Run.openSink r ls s = .ok sink s') :
    ∃ opened files store, Store.openAt (inDirectory directory r.maxVars) s.files = (.ok opened, files) ∧
      sink = .sqlite store ∧ store.address = opened.address ∧
      ∃ ws : List StoreWarning, s'.warnings = s.warnings ++
        (if s.files.exists? (inDirectory directory r.maxVars).url
          then [.appending (inDirectory directory r.maxVars).url] else []) ++ ws.map .store := by
  have hopens {s₁ : Scene} (h : (do
      let store ← Run.openStore (inDirectory directory r.maxVars)
      let prepared ← Scene.use store (Store.prepare ls)
      return Sink.sqlite prepared.2 : Running Sink) s₁ = .ok sink s') :
      ∃ opened files store, Store.openAt (inDirectory directory r.maxVars) s₁.files = (.ok opened, files) ∧
        sink = .sqlite store ∧ store.address = opened.address ∧
        ∃ ws : List StoreWarning, s'.warnings = s₁.warnings ++ ws.map .store := by
    obtain ⟨opened, s₂, hstore, h⟩ := Effects.bind_eq_ok.1 h
    obtain ⟨⟨_, store⟩, s₃, huse, hp⟩ := Effects.bind_eq_ok.1 h
    obtain ⟨rfl, rfl⟩ := Effects.pure_eq_ok.1 hp
    have hprepare := (Scene.use_eq_ok huse).1
    rw [Run.openStore] at hstore
    split at hstore
    · next found files hopen =>
      cases hstore
      refine ⟨opened, files, store, hopen, rfl, (Store.prepare_widens hprepare).2.1, store.warnings, ?_⟩
      rw [Scene.use, hprepare] at huse
      cases huse
      rfl
    · cases hstore
  rw [Run.openSink, hr] at h
  obtain ⟨_, _, hget, h⟩ := Effects.bind_eq_ok.1 h
  cases hget
  split at h
  · next hexists =>
    obtain ⟨_, s₁, hwarn, h⟩ := Effects.bind_eq_ok.1 h
    cases hwarn
    obtain ⟨opened, files, store, hopened⟩ := hopens h
    exact ⟨opened, files, store, by simpa [url_inDirectory, hexists] using hopened⟩
  · next hexists =>
    obtain ⟨opened, files, store, hopened⟩ := hopens h
    exact ⟨opened, files, store, by simpa [url_inDirectory, hexists] using hopened⟩

/-- Where the database of an output directory is. It is opened at the path that the URL names, and in the file that is
looked for there exactly if that path follows the one that the URL is. For a directory without a mark of another meaning
it always does, and for no other directory that can be named and does not go up. -/
theorem database_follows_directory_iff (directory : String) {n : Nat} (hn : 0 < n) :
    (∀ (r : RunConfig) (ls : List TableLayout) (s : Scene) (sink : Sink) (s' : Scene),
      r.output = sqliteIn directory → r.maxVars = n → Run.openSink r ls s = .ok sink s' →
      ∃ opened files store, Store.openAt (inDirectory directory n) s.files = (.ok opened, files) ∧
        sink = .sqlite store ∧ store.address = opened.address ∧
        ∃ ws : List StoreWarning, s'.warnings = s.warnings ++
          (if s.files.exists? (inDirectory directory n).url then [.appending (inDirectory directory n).url] else []) ++
          ws.map .store) ∧
    (∀ fs s fs', Store.openAt (inDirectory directory n) fs = (.ok s, fs') →
      s.LiesAt (inDirectory directory n).path fs fs') ∧
    (∀ fs : FileSystem, fs.Holds (inDirectory directory n).url →
      ((inDirectory directory n).OpensAt (inDirectory directory n).url fs ↔ (inDirectory directory n).Follows fs)) ∧
    (Unmarked directory →
      (∀ fs s fs', Store.openAt (inDirectory directory n) fs = (.ok s, fs') →
        s.LiesAt (inDirectory directory n).url fs fs') ∧
      ∀ fs : FileSystem, fs.Holds (inDirectory directory n).url →
        (inDirectory directory n).OpensAt (inDirectory directory n).url fs) ∧
    (Nameable (inDirectory directory n).url → (∀ p ∈ pieces directory, p ≠ "..") →
      ((∀ fs : FileSystem, fs.Holds (inDirectory directory n).url →
        (inDirectory directory n).OpensAt (inDirectory directory n).url fs) ↔ Unmarked directory)) := by
  have hend := endsInName_inDirectory directory n
  have hopens {fs : FileSystem} (hholds : fs.Holds (inDirectory directory n).url) :
      (inDirectory directory n).OpensAt (inDirectory directory n).url fs ↔ (inDirectory directory n).Follows fs :=
    opensAt_url_iff hn hend hholds
  have hlies {fs s fs'} (hopen : Store.openAt (inDirectory directory n) fs = (.ok s, fs')) :
      s.LiesAt (inDirectory directory n).path fs fs' := (liesAt_of_openAt hn hend hopen).2.1
  refine ⟨?_, fun _ _ _ => hlies, fun _ => hopens, fun hd => ⟨fun fs s fs' hopen => ?_, fun fs hholds => ?_⟩, ?_⟩
  · rintro r ls s sink s' hr rfl h
    exact openSink_inDirectory hr h
  · have hpath := ((unmarked_iff directory n).1 hd).1
    rw [← hpath]
    exact hlies hopen
  · exact (hopens hholds).2 (follows_of_unmarked hd n fs)
  · refine fun hname hup => ⟨fun h => ?_, fun hd fs hholds => (hopens hholds).2 (follows_of_unmarked hd n fs)⟩
    exact unmarked_of_follows hup hname fun fs hholds => (hopens hholds).1 (h fs hholds)

theorem database_follows_directory_new : 0 < 999 ∧ Unmarked "albums/new" ∧
    (FileSystem.ofDirectories []).Holds (inDirectory "albums/new" 999).url ∧
    (inDirectory "albums/new" 999).OpensAt (inDirectory "albums/new" 999).url (FileSystem.ofDirectories []) := by
  have hholds : (FileSystem.ofDirectories []).Holds (inDirectory "albums/new" 999).url :=
    holds_nothing (by decide +kernel) (by decide +kernel)
  have hunmarked : Unmarked "albums/new" :=
    ⟨by decide, by decide +kernel, by decide +kernel, by decide +kernel⟩
  have hn : 0 < 999 := by decide
  obtain ⟨-, -, -, hopens, -⟩ := database_follows_directory_iff "albums/new" hn
  exact ⟨hn, hunmarked, hholds, (hopens hunmarked).2 _ hholds⟩

/-- A database that could be in the output directory is made beside it, or is not opened at all. -/
theorem database_beside_directory :
    (∀ directory ∈ ["file:out", " out"], (FileSystem.ofDirectories []).Holds (inDirectory directory 999).url ∧
      ∃ s fs', Store.openAt (inDirectory directory 999) (FileSystem.ofDirectories []) = (.ok s, fs') ∧
        s.address = some ["out", "db.sqlite"] ∧
        ¬s.LiesAt (inDirectory directory 999).url (FileSystem.ofDirectories []) fs') ∧
    (FileSystem.ofDirectories []).Holds (inDirectory "mode=memory" 999).url ∧
    ∀ s fs', Store.openAt (inDirectory "mode=memory" 999) (FileSystem.ofDirectories []) ≠ (.ok s, fs') := by
  have hn : 0 < 999 := by decide
  have hout : (FileSystem.ofDirectories []).Holds (inDirectory "out" 999).url :=
    holds_nothing (by decide +kernel) (by decide +kernel)
  refine ⟨fun directory hd => ?_, holds_nothing (by decide +kernel) (by decide +kernel), fun s fs' hopen => ?_⟩
  · obtain ⟨hpath, hup, hname, hnear, hmemory, hurl⟩ :
        (inDirectory directory 999).path = (inDirectory "out" 999).url ∧ (∀ p ∈ pieces directory, p ≠ "..") ∧
        Nameable (inDirectory directory 999).url ∧ isRemote (inDirectory directory 999).path = false ∧
        (inDirectory directory 999).isInMemory = false ∧
        (FileSystem.ofDirectories []).settled (inDirectory directory 999).url ≠ ["out", "db.sqlite"] := by
      revert directory
      decide +kernel
    have hend := endsInName_inDirectory directory 999
    have hheld : (FileSystem.ofDirectories []).Holds (inDirectory directory 999).path := hpath ▸ hout
    obtain ⟨s, fs', hopen⟩ := openAt_succeeds hn hend hnear hheld fun hinside => by
      rw [hmemory] at hinside
      cases hinside
    have hplace : s.address = some ["out", "db.sqlite"] := by
      rw [(liesAt_of_openAt hn hend hopen).2.1.address, hpath]
      decide +kernel
    refine ⟨holds_nothing hup hname, s, fs', hopen, hplace, fun hlies => hurl ?_⟩
    exact (Option.some.inj (hplace.symm.trans hlies.address)).symm
  · have hfails : (Store.openAt (inDirectory "mode=memory" 999) (FileSystem.ofDirectories [])).1.isOk = false := by
      decide +kernel
    rw [hopen] at hfails
    cases hfails

end StoreConfig
end Tabulate
