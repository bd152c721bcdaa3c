import Mathlib.Data.List.Infix
import Tabulate.Proofs.Splitting
import Tabulate.Xml.Document

/-! The file that a system identifier names. It should be the identifier itself where that is a path below
the directory, part by part, and else the path below the directory. What is compared is the text of the two
paths, so an identifier that goes on in the last name of the directory stands for itself, and one that spells
the directory in another way does not. -/
namespace Tabulate

open Text (startsWith startsWith_iff)

namespace FilePath

/-! ### Parts -/

/-- The names and steps up in a text, whatever stands before it. -/
def inner (cs : List Char) : List Part :=
  (((cs.splitOn '/').filter fun p => !p.isEmpty).map String.ofList).filterMap partOf?

def lead (cs : List Char) : List Part :=
  if cs.head? = some '/' then [.root]
  else if (cs.splitOn '/').head? = some ['.'] then [.here]
  else []

theorem parts_eq (path : String) : parts path = lead path.toList ++ inner path.toList := by
  unfold parts lead isAbsolute
  simp only [decide_eq_true_eq]
  split
  · rfl
  · split
    · rfl
    · rfl

theorem inner_slash (xs ys : List Char) : inner (xs ++ '/' :: ys) = inner xs ++ inner ys := by
  simp [inner, List.splitOn_append_cons_self]

theorem inner_of_not_mem {cs : List Char} (hne : cs ≠ []) (hslash : '/' ∉ cs) :
    inner cs = (partOf? (String.ofList cs)).toList := by
  have hfilter : [cs].filter (fun p => !p.isEmpty) = [cs] := by simpa using hne
  rw [inner, List.splitOn_eq_singleton hslash, hfilter, List.map_singleton, List.filterMap_cons,
    List.filterMap_nil]
  cases partOf? (String.ofList cs) <;> rfl

/-- Nothing behind a slash changes what a path begins with. -/
theorem lead_slash (xs ys : List Char) : lead (xs ++ '/' :: ys) = lead (xs ++ ['/']) := by
  have hhead : (xs ++ '/' :: ys).head? = (xs ++ ['/']).head? := by
    cases xs <;> rfl
  have hfirst : ((xs ++ '/' :: ys).splitOn '/').head? = ((xs ++ ['/']).splitOn '/').head? := by
    rw [List.splitOn_append_cons_self, List.splitOn_append_cons_self]
    cases h : xs.splitOn '/' with
    | nil => exact absurd h (List.splitOn_ne_nil _ _)
    | cons p ps => rfl
  rw [lead, lead, hhead, hfirst]

theorem lead_append_slash {xs : List Char} (hne : xs ≠ []) : lead (xs ++ ['/']) = lead xs := by
  have hhead : (xs ++ ['/']).head? = xs.head? := List.head?_append_of_ne_nil xs hne
  have hfirst : ((xs ++ ['/']).splitOn '/').head? = (xs.splitOn '/').head? := by
    rw [List.splitOn_append_cons_self]
    cases h : xs.splitOn '/' with
    | nil => exact absurd h (List.splitOn_ne_nil _ _)
    | cons p ps => rfl
  rw [lead, lead, hhead, hfirst]

/-- What stands behind a slash is read by itself. -/
theorem parts_of_slash {path : String} {xs ys : List Char} (h : path.toList = xs ++ '/' :: ys) :
    parts path = lead (xs ++ ['/']) ++ inner xs ++ inner ys := by
  rw [parts_eq, h, lead_slash, inner_slash, List.append_assoc]

theorem partOf?_injective {a b : String} (h : partOf? a = partOf? b) : a = b := by
  unfold partOf? at h
  grind

theorem here_not_mem_inner (cs : List Char) : Part.here ∉ inner cs := by
  intro h
  obtain ⟨piece, -, hpiece⟩ := List.mem_filterMap.1 h
  unfold partOf? at hpiece
  grind

/-! ### Paths below a directory -/

def isBelow (directory path : String) : Bool := (parts directory).isPrefixOf (parts path)

theorem isBelow_iff {directory path : String} : isBelow directory path = true ↔ parts directory <+: parts path :=
  List.isPrefixOf_iff_prefix

/-- A path that goes on inside of the last name of a directory. -/
def Continues (directory path : String) : Prop :=
  ∃ c rest, path.toList = directory.toList ++ c :: rest ∧ c ≠ '/' ∧
    ¬['/'] <:+ directory.toList ∧ ¬['/', '.'] <:+ directory.toList

def Respells (directory path : String) : Prop :=
  isBelow directory path = true ∧ ¬directory.toList <+: path.toList

def Tidy (path : String) : Prop := ofParts (parts path) = path

instance (path : String) : Decidable (Tidy path) := inferInstanceAs (Decidable (_ = _))

section Below
variable {directory path : String}

/-- A name that is made longer ends where the text ends or at a slash. -/
theorem exists_name_longer {cs : List Char} (rest : List Char) {c : Char} (hslash : '/' ∉ cs) (hc : c ≠ '/') :
    ∃ name, '/' ∉ cs ++ c :: name ∧
      (rest = name ∨ ∃ more, cs ++ c :: rest = cs ++ c :: name ++ '/' :: more) := by
  by_cases hrest : '/' ∈ rest
  · obtain ⟨name, more, rfl, hname⟩ := List.eq_append_cons_of_mem hrest
    exact ⟨name, by simp [hslash, hname, Ne.symm hc], .inr ⟨more, by simp⟩⟩
  · exact ⟨rest, by simp [hslash, hrest, Ne.symm hc], .inl rfl⟩

/-- A name that is made longer is another part, and the first one of what is read there. -/
theorem inner_longer {cs : List Char} (rest : List Char) {c : Char} (hne : cs ≠ []) (hslash : '/' ∉ cs)
    (hc : c ≠ '/') : ∃ q more, inner (cs ++ c :: rest) = q :: more ∧ partOf? (String.ofList cs) ≠ some q := by
  obtain ⟨name, hname, hrest⟩ := exists_name_longer rest hslash hc
  have hinner : ∃ more, inner (cs ++ c :: rest) = (partOf? (String.ofList (cs ++ c :: name))).toList ++ more := by
    rw [← inner_of_not_mem (by simp) hname]
    rcases hrest with rfl | ⟨more, hmore⟩
    · exact ⟨[], (List.append_nil _).symm⟩
    · exact ⟨inner more, by rw [hmore, inner_slash]⟩
  obtain ⟨more, hinner⟩ := hinner
  cases hq : partOf? (String.ofList (cs ++ c :: name)) with
  | none =>
    have hdot : String.ofList (cs ++ c :: name) = "." := partOf?_injective hq
    obtain ⟨a, as, rfl⟩ := List.exists_cons_of_ne_nil hne
    have hlength := congrArg (·.toList.length) hdot
    simp at hlength
  | some q =>
    refine ⟨q, more, by rw [hinner, hq]; rfl, fun h => ?_⟩
    have hsame := congrArg String.length (partOf?_injective (h.trans hq.symm))
    simp at hsame

theorem inner_eq_singleton {cs : List Char} (hne : cs ≠ []) (hslash : '/' ∉ cs) (hdot : cs ≠ ['.']) :
    ∃ p, partOf? (String.ofList cs) = some p ∧ inner cs = [p] := by
  cases hp : partOf? (String.ofList cs) with
  | none =>
    have hname : String.ofList cs = "." := partOf?_injective hp
    exact absurd (by simpa using congrArg String.toList hname) hdot
  | some p => exact ⟨p, rfl, by rw [inner_of_not_mem hne hslash, hp]; rfl⟩

theorem lead_of_not_mem {cs : List Char} (hslash : '/' ∉ cs) : lead cs = if cs = ['.'] then [.here] else [] := by
  have hhead : cs.head? ≠ some '/' := fun h => hslash (List.mem_of_mem_head? h)
  rw [lead, if_neg hhead, List.splitOn_eq_singleton hslash, List.head?_cons]
  simp only [Option.some.injEq]

theorem lead_longer {cs : List Char} (rest : List Char) {c : Char} (hne : cs ≠ []) (hslash : '/' ∉ cs)
    (hc : c ≠ '/') : lead (cs ++ c :: rest) = [] := by
  obtain ⟨a, as, rfl⟩ := List.exists_cons_of_ne_nil hne
  obtain ⟨name, hname, hrest⟩ := exists_name_longer rest hslash hc
  have hlead : lead (a :: as ++ c :: name) = [] := by
    rw [lead_of_not_mem hname, if_neg (by simp)]
  rcases hrest with rfl | ⟨more, hmore⟩
  · exact hlead
  · rw [hmore, lead_slash, lead_append_slash (by simp), hlead]

/-- A path that goes on in the last name of a directory has another part there. -/
theorem not_isBelow_of_continues (hne : directory ≠ "") (h : Continues directory path) :
    ¬parts directory <+: parts path := by
  obtain ⟨c, rest, hpath, hc, hends, hdot⟩ := h
  have hlonger {cs : List Char} (hcs : cs ≠ []) (hslash : '/' ∉ cs) (hno : cs ≠ ['.']) (before : List Part) :
      ¬before ++ inner cs <+: before ++ inner (cs ++ c :: rest) := by
    intro hbegins
    obtain ⟨p, hp, hinner⟩ := inner_eq_singleton hcs hslash hno
    obtain ⟨q, more, hmore, hq⟩ := inner_longer rest hcs hslash hc
    rw [List.prefix_append_right_inj, hinner, hmore, List.cons_prefix_cons] at hbegins
    exact hq (hbegins.1 ▸ hp)
  by_cases hslash : '/' ∈ directory.toList
  · obtain ⟨ys, xs, hreverse, hys⟩ := List.eq_append_cons_of_mem (List.mem_reverse.2 hslash)
    have hdirectory : directory.toList = xs.reverse ++ '/' :: ys.reverse := by
      simpa using congrArg List.reverse hreverse
    have hlast : path.toList = xs.reverse ++ '/' :: (ys.reverse ++ c :: rest) := by
      rw [hpath, hdirectory, List.append_assoc, List.cons_append]
    rw [parts_of_slash hdirectory, parts_of_slash hlast]
    refine hlonger (fun hnil => hends ?_) (by simpa using hys) (fun hone => hdot ?_) _
    · exact ⟨xs.reverse, by rw [hdirectory, hnil]⟩
    · exact ⟨xs.reverse, by rw [hdirectory, hone]⟩
  · have hcs : directory.toList ≠ [] := fun h => hne (by simpa using h)
    rw [parts_eq, parts_eq, hpath, lead_longer rest hcs hslash hc, lead_of_not_mem hslash]
    by_cases hone : directory.toList = ['.']
    · rw [if_pos hone]
      intro hbegins
      have hhere := hbegins.subset (List.mem_append_left _ (List.mem_singleton_self Part.here))
      exact here_not_mem_inner _ (by simpa using hhere)
    · rw [if_neg hone]
      exact hlonger hcs hslash hone []

/-- A path that begins with the text of a directory is below it, unless it goes on in its last name. -/
theorem isBelow_of_prefix (h : directory.toList <+: path.toList) (hno : ¬Continues directory path) :
    parts directory <+: parts path := by
  obtain ⟨rest, hpath⟩ := h
  -- Behind a slash nothing is read of the directory but perhaps a dot, which counts for nothing.
  have hopen {xs ys : List Char} (hdirectory : xs ++ '/' :: ys = directory.toList) (hys : inner ys = []) :
      parts directory <+: parts path := by
    have hlast : path.toList = xs ++ '/' :: (ys ++ rest) := by
      rw [← hpath, ← hdirectory, List.append_assoc, List.cons_append]
    rw [parts_of_slash hdirectory.symm, parts_of_slash hlast, hys, List.append_nil]
    exact List.prefix_append _ _
  by_cases hends : ['/'] <:+ directory.toList
  · obtain ⟨xs, hdirectory⟩ := hends
    exact hopen hdirectory rfl
  by_cases hdot : ['/', '.'] <:+ directory.toList
  · obtain ⟨xs, hdirectory⟩ := hdot
    exact hopen hdirectory (by decide)
  cases rest with
  | nil =>
    rw [List.append_nil] at hpath
    rw [String.toList_injective hpath]
  | cons c rest =>
    have hc : c = '/' := by
      by_contra hc
      exact hno ⟨c, rest, hpath.symm, hc, hends, hdot⟩
    subst hc
    by_cases hempty : directory = ""
    · subst hempty
      exact List.nil_prefix
    · have hne : directory.toList ≠ [] := fun h => hempty (by simpa using h)
      rw [parts_of_slash hpath.symm, lead_append_slash hne, ← parts_eq]
      exact List.prefix_append _ _

/-- Among the paths that begin with the text of a directory, those that go on in its last name are not below
it, and all others are. -/
theorem isBelow_iff_not_continues (hne : directory ≠ "") (h : directory.toList <+: path.toList) :
    isBelow directory path = true ↔ ¬Continues directory path := by
  rw [isBelow_iff]
  exact ⟨fun hbelow hcontinues => not_isBelow_of_continues hne hcontinues hbelow, isBelow_of_prefix h⟩

theorem begins_of_continues (h : Continues directory path) : directory.toList <+: path.toList := by
  obtain ⟨c, rest, hpath, -⟩ := h
  exact ⟨c :: rest, hpath.symm⟩

/-- Where the text and the parts of a directory tell apart the same paths. -/
theorem prefix_iff_isBelow (hne : directory ≠ "") : (directory.toList <+: path.toList ↔ isBelow directory path = true) ↔
    ¬Continues directory path ∧ ¬Respells directory path := by
  constructor
  · intro h
    refine ⟨fun hc => ?_, fun hr => hr.2 (h.2 hr.1)⟩
    have hbegins := begins_of_continues hc
    exact (isBelow_iff_not_continues hne hbegins).1 (h.1 hbegins) hc
  · rintro ⟨hc, hr⟩
    refine ⟨fun h => (isBelow_iff_not_continues hne h).2 hc, fun h => ?_⟩
    by_contra hbegins
    exact hr ⟨h, hbegins⟩

/-! ### Tidy paths -/

theorem intercalate_prefix (a : Part) {as bs : List Part} (h : as <+: bs) :
    ("/".intercalate ((a :: as).map Part.text)).toList <+: ("/".intercalate ((a :: bs).map Part.text)).toList := by
  induction as generalizing a bs with
  | nil =>
    cases bs with
    | nil => exact List.prefix_rfl
    | cons b bs =>
      rw [List.map_cons, List.map_cons, List.map_cons, List.map_nil, String.intercalate_cons_cons,
        String.intercalate_singleton, String.append_assoc, String.toList_append]
      exact List.prefix_append _ _
  | cons x as ih =>
    obtain ⟨bs, rfl, hbs⟩ := List.cons_prefix_iff.1 h
    have hrest := ih x hbs
    rw [List.map_cons, List.map_cons] at hrest
    simp only [List.map_cons, String.intercalate_cons_cons, String.toList_append]
    rwa [List.prefix_append_right_inj]

theorem ofParts_prefix {as bs : List Part} (h : as <+: bs) : (ofParts as).toList <+: (ofParts bs).toList := by
  cases as with
  | nil => exact List.nil_prefix
  | cons a as =>
    obtain ⟨bs, rfl, hbs⟩ := List.cons_prefix_iff.1 h
    cases a with
    | root =>
      show ("/" ++ "/".intercalate (as.map Part.text)).toList <+: ("/" ++ "/".intercalate (bs.map Part.text)).toList
      rw [String.toList_append, String.toList_append, List.prefix_append_right_inj]
      cases as with
      | nil => exact List.nil_prefix
      | cons x as =>
        obtain ⟨bs, rfl, hxs⟩ := List.cons_prefix_iff.1 hbs
        exact intercalate_prefix x hxs
    | here => exact intercalate_prefix .here hbs
    | up => exact intercalate_prefix .up hbs
    | name s => exact intercalate_prefix (.name s) hbs

/-- Of tidy paths the text tells what is below a directory. -/
theorem not_respells_of_tidy (hd : Tidy directory) (hp : Tidy path) : ¬Respells directory path := by
  rintro ⟨hbelow, hno⟩
  have hbegins := ofParts_prefix (isBelow_iff.1 hbelow)
  rw [hd, hp] at hbegins
  exact hno hbegins

end Below

end FilePath

/-! ### Reading the file -/

namespace Xml

/-- The file that an identifier should name. -/
def resolved (directory systemId : String) : String :=
  if FilePath.isBelow directory systemId then systemId else FilePath.join directory systemId

/-- The file that is read to put its declarations in front of those of a text: that it cannot be read is what the
failure tells, and nothing else in the file system makes a difference. -/
structure Reads (directory text file : String) : Prop where
  fails : ∀ fs fault, fs.readText file = .error fault → inlineDtd fs directory text = .error (.dtd file fault)
  depends : ∀ fs fs', fs.readText file = fs'.readText file → inlineDtd fs directory text = inlineDtd fs' directory text

theorem join_eq_self_iff {directory name : String} :
    FilePath.join directory name = name ↔ FilePath.isAbsolute name = true ∨ directory = "" := by
  have hlonger (before : String) : before ++ name = name ↔ before = "" := by
    rw [← String.toList_inj, String.toList_append, List.append_left_eq_self, String.toList_eq_nil_iff]
  rw [FilePath.join]
  split
  · next habsolute => simp [habsolute]
  · next hrelative =>
    have hrelative' : FilePath.isAbsolute name = false := by simpa using hrelative
    split
    · rw [hlonger, hrelative', Bool.false_eq_true, false_or]
    · next hinner =>
      have hne : directory ≠ "" := by
        rintro rfl
        exact hinner rfl
      rw [hlonger, hrelative', Bool.false_eq_true, false_or]
      simp [hne]

theorem dtdFile_eq (directory systemId : String) : dtdFile directory systemId =
    if directory.toList <+: systemId.toList then systemId else FilePath.join directory systemId := by
  rw [dtdFile]
  exact if_congr startsWith_iff rfl rfl

/-- Where the two rules give the same file. -/
theorem dtdFile_eq_resolved_iff {directory systemId : String} :
    dtdFile directory systemId = resolved directory systemId ↔ FilePath.isAbsolute systemId = true ∨
      directory = "" ∨ ¬FilePath.Continues directory systemId ∧ ¬FilePath.Respells directory systemId := by
  rw [dtdFile_eq, resolved, ← or_assoc, ← join_eq_self_iff]
  by_cases hjoin : FilePath.join directory systemId = systemId
  · simp [hjoin]
  · have hne : directory ≠ "" := fun h => hjoin (join_eq_self_iff.2 (.inr h))
    rw [← FilePath.prefix_iff_isBelow hne, or_iff_right hjoin]
    by_cases hbegins : directory.toList <+: systemId.toList
    · by_cases hbelow : FilePath.isBelow directory systemId = true
      · simp [hbegins, hbelow]
      · simp [hbegins, hbelow, Ne.symm hjoin]
    · by_cases hbelow : FilePath.isBelow directory systemId = true
      · simp [hbegins, hbelow, hjoin]
      · simp [hbegins, hbelow]

/-- Nothing can be read where there are no files. -/
theorem readText_of_no_entries (file : String) :
    ∃ fault, (⟨[], [], none⟩ : FileSystem).readText file = .error fault := by
  cases hlocate : (⟨[], [], none⟩ : FileSystem).locate file with
  | error fault => exact ⟨fault, by rw [FileSystem.readText, FileSystem.read, FileSystem.entry, hlocate]; rfl⟩
  | ok address =>
    cases address with
    | nil => exact ⟨.isDirectory, by rw [FileSystem.readText, FileSystem.read, FileSystem.entry, hlocate]; rfl⟩
    | cons name names => exact ⟨.notFound, by rw [FileSystem.readText, FileSystem.read, FileSystem.entry, hlocate]; rfl⟩

theorem reads_iff {directory text : String} {front : List Char} {found : ExternalDoctype}
    (hfound : firstFound? externalDoctype? text.toList = some (front, found)) (file : String) :
    Reads directory text file ↔ file = dtdFile directory (String.ofList found.systemId) := by
  have hfails (fs : FileSystem) (fault : IoFault)
      (h : fs.readText (dtdFile directory (String.ofList found.systemId)) = .error fault) :
      inlineDtd fs directory text = .error (.dtd (dtdFile directory (String.ofList found.systemId)) fault) := by
    rw [inlineDtd, hfound]
    simp only [h]
    rfl
  constructor
  · intro hreads
    obtain ⟨fault, hfault⟩ := readText_of_no_entries file
    obtain ⟨fault', hfault'⟩ := readText_of_no_entries (dtdFile directory (String.ofList found.systemId))
    have hsame := (hreads.fails _ _ hfault).symm.trans (hfails _ _ hfault')
    injection hsame with hsame
    injection hsame
  · rintro rfl
    refine ⟨hfails, fun fs fs' h => ?_⟩
    rw [inlineDtd, inlineDtd, hfound]
    simp only [h]

/-- The file that is read for a document type with a system identifier is the one that the identifier should name
exactly if the identifier is absolute, or no directory is given, or it neither goes on in the last name of the
directory nor spells the directory in another way; the latter is nothing that tidy paths do. -/
theorem reads_resolved_iff {directory text : String} {front : List Char} {found : ExternalDoctype}
    (hfound : firstFound? externalDoctype? text.toList = some (front, found)) :
    let systemId := String.ofList found.systemId
    Reads directory text (dtdFile directory systemId) ∧
    (Reads directory text (resolved directory systemId) ↔ FilePath.isAbsolute systemId = true ∨ directory = "" ∨
      ¬FilePath.Continues directory systemId ∧ ¬FilePath.Respells directory systemId) ∧
    (FilePath.Tidy directory → FilePath.Tidy systemId → ¬FilePath.Respells directory systemId) := by
  intro systemId
  refine ⟨(reads_iff hfound _).2 rfl, ?_, FilePath.not_respells_of_tidy⟩
  rw [reads_iff hfound, eq_comm]
  exact dtdFile_eq_resolved_iff

/-- An identifier that is a path below the directory already. -/
theorem reads_resolved_albums :
    let text := "<!DOCTYPE a SYSTEM \"album/album.dtd\"><a/>"
    firstFound? externalDoctype? text.toList = some ([], ⟨['a'], "album/album.dtd".toList, "><a/>".toList⟩) ∧
      resolved "album" "album/album.dtd" = "album/album.dtd" ∧ Reads "album" text "album/album.dtd" := by
  have hfound : firstFound? externalDoctype? "<!DOCTYPE a SYSTEM \"album/album.dtd\"><a/>".toList =
      some ([], ⟨['a'], "album/album.dtd".toList, "><a/>".toList⟩) := by rfl
  have hresolved : resolved "album" "album/album.dtd" = "album/album.dtd" := by rfl
  have hcontinues : ¬FilePath.Continues "album" "album/album.dtd" := by
    rintro ⟨c, rest, hpath, hc, -⟩
    have hnext : c = '/' ∧ rest = "album.dtd".toList := by simpa using hpath.symm
    exact hc hnext.1
  obtain ⟨-, hreads, htidy⟩ : _ ∧ (Reads "album" _ _ ↔ _) ∧ _ := reads_resolved_iff hfound
  rw [String.ofList_toList, hresolved] at hreads
  exact ⟨hfound, hresolved, hreads.2 (.inr (.inr ⟨hcontinues, htidy (by rfl) (by rfl)⟩))⟩

/-- A file in a directory whose name begins its own is looked for outside of the directory. -/
theorem directory_taken_for_beginning :
    let fs : FileSystem := ⟨[(["album"], .directory),
      (["album", "album.dtd"], .file (Text.Utf8.encode "<!ENTITY e \"x\">".toList))], [], none⟩
    let text := "<!DOCTYPE a SYSTEM \"album.dtd\"><a>&e;</a>"
    resolved "album" "album.dtd" = "album/album.dtd" ∧ fs.readText "album/album.dtd" = .ok "<!ENTITY e \"x\">" ∧
      inlineDtd fs "album" text = .error (.dtd "album.dtd" .notFound) ∧
      ¬Reads "album" text (resolved "album" "album.dtd") := by
  have hfound : firstFound? externalDoctype? "<!DOCTYPE a SYSTEM \"album.dtd\"><a>&e;</a>".toList =
      some ([], ⟨['a'], "album.dtd".toList, "><a>&e;</a>".toList⟩) := by rfl
  refine ⟨by rfl, by rfl, by rfl, fun h => ?_⟩
  exact absurd ((reads_iff hfound _).1 h) (by decide +kernel)

end Xml
end Tabulate
