import Tabulate.Proofs.Headers
import Tabulate.Proofs.Settling

/-! The files of tables. A table's name becomes part of a path, so what stands between its slashes is followed. A
name without slashes has a file of its own in the directory. Others are kept apart if none of them goes up from the
directory or begins at the root, and no two lead to one place below it. -/
namespace Tabulate

namespace FilePath

def sink? (below : List String) (piece : String) : Option (List String) :=
  if piece = "." then some below
  else if piece = ".." then if below = [] then none else some below.dropLast
  else some (below ++ [piece])

/-- The names that lead to a path from a directory, if it stays below it all the way. -/
def below? (path : String) : Option (List String) :=
  if isAbsolute path then none else (pieces path).foldlM sink? []

section Sinking
variable {below names pieces : List String} {piece : String}

theorem settle_of_sink? (h : sink? below piece = some names) (d : List String) :
    settle (d ++ below) piece = d ++ names := by
  unfold sink? at h
  unfold settle
  split at h
  · next hdot =>
    cases h
    rw [if_pos hdot]
  · next hdot =>
    rw [if_neg hdot]
    split at h
    · next hup =>
      split at h
      · cases h
      · next hne =>
        cases h
        rw [if_pos hup, List.dropLast_append_of_ne_nil hne]
    · next hup =>
      cases h
      rw [if_neg hup, List.append_assoc]

theorem foldl_settle_of_sink? (h : pieces.foldlM sink? below = some names) (d : List String) :
    pieces.foldl settle (d ++ below) = d ++ names := by
  induction pieces generalizing below with
  | nil =>
    cases h
    rfl
  | cons piece pieces ih =>
    rw [List.foldlM_cons] at h
    obtain ⟨middle, hpiece, hrest⟩ := Option.bind_eq_some_iff.1 h
    rw [List.foldl_cons, settle_of_sink? hpiece]
    exact ih hrest

/-- Pieces that go up from a directory lead to the same place from any other beside it. -/
theorem foldl_settle_of_rise (h : pieces.foldlM sink? below = none) (x y : String) :
    pieces.foldl settle (x :: below) = pieces.foldl settle (y :: below) := by
  induction pieces generalizing below with
  | nil => cases h
  | cons piece pieces ih =>
    rw [List.foldlM_cons] at h
    rw [List.foldl_cons, List.foldl_cons]
    cases hpiece : sink? below piece with
    | none =>
      have hup : piece = ".." ∧ below = [] := by
        unfold sink? at hpiece
        grind
      rw [hup.1, hup.2]
      rfl
    | some middle =>
      have hsettle (z : String) : settle (z :: below) piece = z :: middle := settle_of_sink? hpiece [z]
      rw [hpiece] at h
      rw [hsettle, hsettle]
      exact ih h

end Sinking

/-- The last piece of a file's path ends as the path does. -/
theorem exists_last_piece (table : String) : ∃ before last, pieces (table ++ ".csv") = before ++ [last ++ ".csv"] := by
  generalize hcs : table.toList = cs
  induction hn : cs.length using Nat.strongRecOn generalizing table cs with
  | ind n ih =>
    by_cases hslash : '/' ∈ cs
    · obtain ⟨xs, ys, hsplit⟩ := List.append_of_mem hslash
      have hshorter : ys.length < n := by
        rw [← hn, hsplit, List.length_append, List.length_cons]
        omega
      obtain ⟨before, last, hlast⟩ := ih ys.length hshorter (String.ofList ys) ys (by simp) rfl
      have hpath : (table ++ ".csv").toList = xs ++ '/' :: (ys ++ ".csv".toList) := by simp [hcs, hsplit]
      refine ⟨pieces (String.ofList xs) ++ before, last, ?_⟩
      rw [pieces_slash xs _ hpath, String.ofList_append, String.ofList_toList, hlast, List.append_assoc]
    · refine ⟨[], table, pieces_of_plain ?_ (by simp)⟩
      simpa [Plain, hcs] using hslash

theorem ne_nil_of_below? {table : String} {names : List String} (h : below? (table ++ ".csv") = some names) :
    names ≠ [] := by
  obtain ⟨before, last, hlast⟩ := exists_last_piece table
  have hname : last ++ ".csv" ≠ "." ∧ last ++ ".csv" ≠ ".." := by
    constructor
    · intro h
      have hend := congrArg (fun s => s.toList.getLast?) h
      simp at hend
    · intro h
      have hend := congrArg (fun s => s.toList.getLast?) h
      simp at hend
  unfold below? at h
  split at h
  · cases h
  · rw [hlast, List.foldlM_append] at h
    obtain ⟨middle, -, hrest⟩ := Option.bind_eq_some_iff.1 h
    rw [List.foldlM_cons, sink?, if_neg hname.1, if_neg hname.2] at hrest
    cases hrest
    exact List.concat_ne_nil _ _

end FilePath

namespace Csv
open FilePath

def Nameable (table : String) : Prop :=
  table.toList.contains (Char.ofNat 0) = false ∧ ∀ p ∈ pieces (table ++ ".csv"), p.utf8ByteSize ≤ 255

instance (table : String) : Decidable (Nameable table) := inferInstanceAs (Decidable (_ ∧ _))

/-- The files of tables stay below their directory, and no two are the same. -/
def TellsApart (tables : List String) : Prop :=
  ∀ t ∈ tables, Nameable t → (below? (t ++ ".csv")).isSome ∧
    ∀ s ∈ tables, Nameable s → below? (s ++ ".csv") = below? (t ++ ".csv") → s = t

instance (tables : List String) : Decidable (TellsApart tables) :=
  inferInstanceAs (Decidable (∀ _ ∈ tables, _ → _))

namespace Writer

/-- The files of different tables are at different places, and all of them are below the directory. -/
structure KeepsApart (w : Writer) (fs : FileSystem) (tables : List String) : Prop where
  injective : ∀ s ∈ tables, ∀ t ∈ tables, ∀ a, fs.locate (w.pathFor s) = .ok a → fs.locate (w.pathFor t) = .ok a → s = t
  inside : ∀ t ∈ tables, ∀ a, fs.locate (w.pathFor t) = .ok a →
    fs.settled w.directory <+: a ∧ fs.settled w.directory ≠ a

variable {w : Writer} {fs fs' : FileSystem} {table : String} {tables names a : List String}

theorem pieces_pathFor (w : Writer) (table : String) : pieces (w.pathFor table) =
    if isAbsolute (table ++ ".csv") then pieces (table ++ ".csv")
    else pieces w.directory ++ pieces (table ++ ".csv") := by
  rw [pathFor]
  split
  · next h => rw [join, if_pos h]
  · next h => rw [pieces_join (Bool.eq_false_iff.2 h)]

theorem nameable_of_locate (h : fs.locate (w.pathFor table) = .ok a) : Nameable table := by
  obtain ⟨hnul, -, hfold, -⟩ := FileSystem.locate_eq_ok.1 h
  have hshort := (FileSystem.foldlM_descend_eq_ok.1 hfold).2.1
  constructor
  · obtain ⟨front, hpath, -⟩ := toList_join w.directory (table ++ ".csv")
    simp only [pathFor, hpath, List.contains_eq_mem, decide_eq_false_iff_not] at hnul ⊢
    exact fun hmem => hnul (by simp [hmem])
  · intro p hp
    refine hshort p ?_
    rw [pieces_pathFor]
    split
    · exact hp
    · exact List.mem_append_right _ hp

theorem settled_pathFor (h : isAbsolute (table ++ ".csv") = false) :
    fs.settled (w.pathFor table) = (pieces (table ++ ".csv")).foldl settle (fs.settled w.directory) := by
  have horigin : fs.origin (w.pathFor table) = fs.origin w.directory := by
    rw [FileSystem.origin, pathFor, isAbsolute_join h, FileSystem.origin]
  rw [FileSystem.settled, horigin, pieces_pathFor, h, if_neg Bool.false_ne_true, List.foldl_append]
  rfl

/-- Below the directory a path leads where its names lead. -/
theorem settled_of_below? (h : below? (table ++ ".csv") = some names) :
    fs.settled (w.pathFor table) = fs.settled w.directory ++ names := by
  unfold below? at h
  split at h
  · cases h
  · next hrelative =>
    have hfold := foldl_settle_of_sink? h (fs.settled w.directory)
    rw [List.append_nil] at hfold
    rw [settled_pathFor (Bool.eq_false_iff.2 hrelative), hfold]

theorem keepsApart_of_tellsApart (h : TellsApart tables) (w : Writer) (fs : FileSystem) : w.KeepsApart fs tables where
  injective s hs t ht a hlocated hlocated' := by
    obtain ⟨hbelow, hother⟩ := h t ht (nameable_of_locate hlocated')
    obtain ⟨hbelow', -⟩ := h s hs (nameable_of_locate hlocated)
    obtain ⟨names, hnames⟩ := Option.isSome_iff_exists.1 hbelow
    obtain ⟨names', hnames'⟩ := Option.isSome_iff_exists.1 hbelow'
    have hplace := (FileSystem.eq_settled hlocated').trans (settled_of_below? hnames)
    have hplace' := (FileSystem.eq_settled hlocated).trans (settled_of_below? hnames')
    have hsame : names' = names := List.append_cancel_left (hplace'.symm.trans hplace)
    refine hother s hs (nameable_of_locate hlocated) ?_
    rw [hnames, hnames', hsame]
  inside t ht a hlocated := by
    obtain ⟨names, hnames⟩ := Option.isSome_iff_exists.1 (h t ht (nameable_of_locate hlocated)).1
    rw [FileSystem.eq_settled hlocated, settled_of_below? hnames]
    refine ⟨List.prefix_append _ _, fun hnone => ne_nil_of_below? hnames ?_⟩
    simpa using hnone

/-! ### Names that are not kept apart -/

/-- There is a file system where nameable tables have their files, in a directory whose name is one letter. -/
theorem exists_located {x : String} (hx : x = "a" ∨ x = "b") (hnameable : ∀ t ∈ tables, Nameable t) :
    ∃ fs : FileSystem, fs.workingDirectory = [] ∧
      ∀ t ∈ tables, fs.locate (pathFor ⟨x, {}⟩ t) = .ok (fs.settled (pathFor ⟨x, {}⟩ t)) := by
  let w : Writer := ⟨x, {}⟩
  refine ⟨.ofDirectories (tables.flatMap fun t => visited [] (pieces (w.pathFor t))), rfl, fun t ht => ?_⟩
  obtain ⟨hnul, hshort⟩ := hnameable t ht
  obtain ⟨front, hjoin, hfront⟩ := toList_join w.directory (t ++ ".csv")
  have hpath : (w.pathFor t).toList = front ++ (t ++ ".csv").toList := hjoin
  have hfirst : x.toList.contains (Char.ofNat 0) = false ∧ pieces x = [x] ∧ x.utf8ByteSize ≤ 255 := by
    rcases hx with rfl | rfl <;> decide
  refine FileSystem.locate_of_visited ?_ ?_ (w.not_endsInSlash_pathFor t) ?_ ?_
  · have hends : '\x00' ∉ (t ++ ".csv").toList := by simpa using hnul
    have hfree : '\x00' ∉ front := by
      intro hmem
      rcases hfront _ hmem with hmem | hslash
      · exact absurd hfirst.1 (by simpa using hmem)
      · cases hslash
    rw [List.contains_eq_mem, decide_eq_false_iff_not, hpath, List.mem_append, not_or]
    exact ⟨hfree, hends⟩
  · have hne : (w.pathFor t).toList ≠ [] := by
      rw [hpath]
      simp
    simpa using hne
  · intro p hp
    rw [pieces_pathFor] at hp
    split at hp
    · exact hshort p hp
    · rcases List.mem_append.1 hp with hp | hp
      · rw [hfirst.2.1, List.mem_singleton] at hp
        rw [hp]
        exact hfirst.2.2
      · exact hshort p hp
  · intro d hd
    refine FileSystem.at?_ofDirectories (List.mem_flatMap.2 ⟨t, ht, ?_⟩)
    rw [FileSystem.origin] at hd
    split at hd <;> exact hd

/-- A name that goes up from its directory, or begins at the root, has its file outside of some directory. -/
theorem below?_of_keepsApart {t : String} (ht : Nameable t)
    (h : ∀ (w : Writer) (fs : FileSystem), w.KeepsApart fs [t]) : (below? (t ++ ".csv")).isSome := by
  have hone : ∀ s ∈ [t], Nameable s := by simpa using ht
  obtain ⟨fs, hcwd, hlocated⟩ := exists_located (.inl rfl) hone
  obtain ⟨fs', hcwd', hlocated'⟩ := exists_located (.inr rfl) hone
  have hplace : fs.settled "a" = ["a"] ∧ fs'.settled "b" = ["b"] := by
    have hpieces : pieces "a" = ["a"] ∧ pieces "b" = ["b"] := by decide
    have hrelative : isAbsolute "a" = false ∧ isAbsolute "b" = false := by decide
    simp [FileSystem.settled, FileSystem.origin, hcwd, hcwd', hpieces, hrelative, settle]
  have hinside := ((h ⟨"a", {}⟩ fs).inside t List.mem_cons_self _ (hlocated t List.mem_cons_self)).1
  have hinside' := ((h ⟨"b", {}⟩ fs').inside t List.mem_cons_self _ (hlocated' t List.mem_cons_self)).1
  cases hbelow : below? (t ++ ".csv") with
  | some names => rfl
  | none =>
    -- the file is at the same place for both directories
    have hsame : fs.settled (pathFor ⟨"a", {}⟩ t) = fs'.settled (pathFor ⟨"b", {}⟩ t) := by
      unfold below? at hbelow
      split at hbelow
      · next habsolute =>
        have hjoin (x : String) : pathFor ⟨x, {}⟩ t = t ++ ".csv" := by rw [pathFor, join, if_pos habsolute]
        simp [FileSystem.settled, FileSystem.origin, hjoin, habsolute]
      · next hrelative =>
        rw [settled_pathFor (Bool.eq_false_iff.2 hrelative), settled_pathFor (Bool.eq_false_iff.2 hrelative),
          hplace.1, hplace.2]
        exact foldl_settle_of_rise hbelow "a" "b"
    rw [hplace.1, hsame] at hinside
    rw [hplace.2] at hinside'
    obtain ⟨more, hmore⟩ := hinside
    obtain ⟨more', hmore'⟩ := hinside'
    have hfirst := hmore.trans hmore'.symm
    simp at hfirst

theorem tellsApart_of_keepsApart (h : ∀ (w : Writer) (fs : FileSystem), w.KeepsApart fs tables) :
    TellsApart tables := by
  intro t ht hnameable
  have hbelow : (below? (t ++ ".csv")).isSome := by
    refine below?_of_keepsApart hnameable fun w fs => ⟨?_, ?_⟩
    · intro s hs s' hs' _ _ _
      rw [List.mem_singleton.1 hs, List.mem_singleton.1 hs']
    · intro s hs
      rw [List.mem_singleton.1 hs]
      exact (h w fs).inside t ht
  refine ⟨hbelow, fun s hs hnameable' hsame => ?_⟩
  obtain ⟨names, hnames⟩ := Option.isSome_iff_exists.1 hbelow
  have hboth : ∀ r ∈ [s, t], Nameable r := by simpa using ⟨hnameable', hnameable⟩
  obtain ⟨fs, -, hlocated⟩ := exists_located (.inl rfl) hboth
  have hs' := hlocated s (by simp)
  have ht' := hlocated t (by simp)
  rw [settled_of_below? (hsame.trans hnames)] at hs'
  rw [settled_of_below? hnames] at ht'
  exact (h ⟨"a", {}⟩ fs).injective s hs t ht _ hs' ht'

/-- Names without slashes are told apart. -/
theorem tellsApart_of_plain (h : ∀ t ∈ tables, Plain t) : TellsApart tables := by
  have hname {t : String} (ht : t ∈ tables) : below? (t ++ ".csv") = some [t ++ ".csv"] := by
    have hplain := plain_fileName (h t ht)
    rw [below?, isAbsolute_of_plain hplain, if_neg Bool.false_ne_true, pieces_of_plain hplain (by simp),
      List.foldlM_cons, sink?, if_neg (fileName_ne (by decide)), if_neg (fileName_ne (by decide))]
    rfl
  intro t ht _
  refine ⟨by rw [hname ht]; rfl, fun s hs _ hsame => ?_⟩
  rw [hname hs, hname ht, Option.some.injEq, List.cons.injEq] at hsame
  simpa [← String.toList_inj] using hsame.1

/-! ### Writing -/

/-- What is written to a table goes to its own file below the directory. -/
theorem writeTable_confined (h : TellsApart tables) {l : TableLayout} {rs : List Record} {n : Nat}
    (hl : l.name ∈ tables) (hw : w.writeTable l rs fs = .ok n fs') :
    (∀ a, ¬fs.settled w.directory <+: a → fs'.at? a = fs.at? a) ∧
      ∀ t ∈ tables, t ≠ l.name → fs'.content? (w.pathFor t) = fs.content? (w.pathFor t) := by
  have happend := writeTable_eq_ok (p := ⟨l, rs⟩) hw
  have hapart := keepsApart_of_tellsApart h w fs
  constructor
  · intro a ha
    exact FileSystem.at?_append happend fun hlocated => ha (hapart.inside l.name hl a hlocated).1
  · intro t ht hne
    refine (FileSystem.sameDirectories_append happend).content? (w.not_endsInSlash_pathFor t) fun a ha => ?_
    exact FileSystem.at?_append happend fun hlocated => hne (hapart.injective t ht l.name hl a ha hlocated)

/-- Tables have different files below every directory, whatever there is in the file system, if and only if none of
their names goes up from it or begins at the root and no two lead to one place below it; names without slashes are
such names. Then what is written to one of the tables leaves the files of the others, and all that is not below the
directory, as they are. -/
theorem sheets_kept_apart_iff (tables : List String) :
    ((∀ (w : Writer) (fs : FileSystem), w.KeepsApart fs tables) ↔ TellsApart tables) ∧
    ((∀ t ∈ tables, Plain t) → TellsApart tables) ∧
    (TellsApart tables → ∀ (w : Writer) (l : TableLayout) (rs : List Record) (fs fs' : FileSystem) (n : Nat),
      l.name ∈ tables → w.writeTable l rs fs = .ok n fs' →
      (∀ a, ¬fs.settled w.directory <+: a → fs'.at? a = fs.at? a) ∧
        ∀ t ∈ tables, t ≠ l.name → fs'.content? (w.pathFor t) = fs.content? (w.pathFor t)) :=
  ⟨⟨tellsApart_of_keepsApart, keepsApart_of_tellsApart⟩, tellsApart_of_plain,
    fun h _ _ _ _ _ _ hl hw => writeTable_confined h hl hw⟩

theorem sheets_kept_apart_iff_albums : (∀ t ∈ ["album", "track"], Plain t) ∧ TellsApart ["album", "disc/track"] ∧
    sheets.KeepsApart noFiles ["album", "track"] ∧ sheets.KeepsApart noFiles ["album", "disc/track"] := by
  have hplain : ∀ t ∈ ["album", "track"], Plain t := by decide
  have happart : TellsApart ["album", "disc/track"] := by decide +kernel
  have hnames := sheets_kept_apart_iff ["album", "track"]
  exact ⟨hplain, happart, hnames.1.2 (hnames.2.1 hplain) sheets noFiles,
    (sheets_kept_apart_iff ["album", "disc/track"]).1.2 happart sheets noFiles⟩

def songsAround : Session :=
  ⟨[⟨"song", ["side"], none⟩, ⟨"./song", ["title"], none⟩, ⟨"../song", ["title", "side"], none⟩],
    [((Tables.empty.append "song" [song]).append "./song" [song]).append "../song" [song]]⟩

/-- Two of them are written to one file, below one header, and the third outside of the directory. -/
theorem tables_share_a_sheet : ∃ fs, songsAround.write sheets noFiles = .ok () fs ∧
    ¬sheets.KeepsApart fs ["song", "./song"] ∧ ¬sheets.KeepsApart fs ["../song"] ∧
    fs.at? ["sheets", "song.csv"] = some (.file (Text.Utf8.encode "title\r\nRoad\r\nA\r\n".toList)) ∧
    fs.at? ["song.csv"] = some (.file (Text.Utf8.encode "title,side\r\nRoad,A\r\n".toList)) := by
  obtain ⟨fs, hwritten, hfiles⟩ := Effects.exists_of_succeeds
    (show Effects.succeeds (fun fs =>
        fs.locate (sheets.pathFor "song") = .ok ["sheets", "song.csv"] ∧
        fs.locate (sheets.pathFor "./song") = .ok ["sheets", "song.csv"] ∧
        fs.locate (sheets.pathFor "../song") = .ok ["song.csv"] ∧ ¬fs.settled sheets.directory <+: ["song.csv"] ∧
        fs.at? ["sheets", "song.csv"] = some (.file (Text.Utf8.encode "title\r\nRoad\r\nA\r\n".toList)) ∧
        fs.at? ["song.csv"] = some (.file (Text.Utf8.encode "title,side\r\nRoad,A\r\n".toList)))
      (songsAround.write sheets noFiles) = true by decide +kernel)
  obtain ⟨hsong, hdotted, hup, houtside, hshared, hthird⟩ := of_decide_eq_true hfiles
  refine ⟨fs, hwritten, fun h => ?_, fun h => ?_, hshared, hthird⟩
  · exact absurd (h.injective "song" (by simp) "./song" (by simp) _ hsong hdotted) (by decide)
  · exact houtside (h.inside "../song" (by simp) _ hup).1

end Writer
end Csv
end Tabulate
