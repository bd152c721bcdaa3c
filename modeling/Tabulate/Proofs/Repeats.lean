import Mathlib.Data.List.Induction
import Mathlib.Data.List.Pairwise
import Tabulate.Proofs.Predicates
import Tabulate.Proofs.Spellings

/-! Files that are met more than once. Of the files that inputs stand for, each one is kept where some spelling of
it with the same parts is met first. A file occurs twice exactly if two of its spellings that are met have different
parts, as `a.xml` and `./a.xml` have; none does where inputs have no dots and steps up in them and all begin at the
root, or none of them does. -/
namespace Tabulate.FileSystem

open Effects FilePath

variable {fs : FileSystem} {path p q name input : String} {a b : List String} {files : List String}

/-! ### What lies below a directory -/

def Proper (fs : FileSystem) : Prop :=
  ∀ e ∈ fs.entries, ∀ n ∈ e.1, IsName n ∧ n.toList.contains (Char.ofNat 0) = false ∧ n.utf8ByteSize ≤ 255

instance (fs : FileSystem) : Decidable fs.Proper := inferInstanceAs (Decidable (∀ _ ∈ _, _))

theorem isFile_iff : fs.isFile p = true ↔ ∃ a e, fs.locate p = .ok a ∧ fs.at? a = some e ∧ e ≠ .directory := by
  rw [isFile, entry]
  cases hp : fs.locate p with
  | error fault => simp [bind, Except.bind]
  | ok a =>
    cases ha : fs.at? a with
    | none => simp [bind, Except.bind, ha, throw, throwThe, MonadExceptOf.throw]
    | some e => cases e <;> simp [bind, Except.bind, ha, pure, Except.pure]

theorem mem_entries_of_mem_names (h : name ∈ fs.names a) : ∃ e ∈ fs.entries, name ∈ e.1 := by
  rw [names, List.mem_mergeSort] at h
  obtain ⟨e, he, hname⟩ := List.mem_filterMap.1 h
  split at hname
  · next last hlast =>
    split at hname
    · cases hname
      exact ⟨e, he, List.mem_of_getLast? hlast⟩
    · cases hname
  · cases hname

theorem locate_name (hpath : fs.locate path = .ok a) (hdir : fs.at? a = some .directory) (hname : IsName name)
    (hnul : name.toList.contains (Char.ofNat 0) = false) (hshort : name.utf8ByteSize ≤ 255) :
    fs.locate (join path name) = .ok (a ++ [name]) := by
  obtain ⟨hnul', hempty, hfold, -⟩ := locate_eq_ok.1 hpath
  obtain ⟨front, htext, hfront⟩ := toList_join path name
  have hrelative := isAbsolute_of_plain hname.2.1
  have hslash : ¬endsInSlash (join path name) := by
    intro hlast
    rw [endsInSlash, htext, List.getLast?_append_of_ne_nil _ hname.toList_ne_nil] at hlast
    exact hname.2.1 (List.mem_of_getLast? hlast)
  refine locate_eq_ok.2 ⟨?_, ?_, ?_, fun h => absurd h hslash⟩
  · simp only [List.contains_eq_mem, decide_eq_false_iff_not] at hnul hnul' ⊢
    rw [htext, List.mem_append, not_or]
    refine ⟨fun hmem => ?_, hnul⟩
    rcases hfront _ hmem with hmem | hzero
    · exact hnul' hmem
    · cases hzero
  · have hne : (join path name).toList ≠ [] := by simp [htext, hname.toList_ne_nil]
    simpa using hne
  · have horigin : fs.origin (join path name) = fs.origin path := by
      rw [origin, isAbsolute_join hrelative, origin]
    have hdescend : fs.descend a name = .ok (a ++ [name]) :=
      descend_eq_ok.2 ⟨hdir, hshort, by rw [settle, if_neg hname.2.2.1, if_neg hname.2.2.2]⟩
    rw [horigin, pieces_join hrelative, pieces_of_plain hname.2.1 hname.1, List.foldlM_append]
    exact except_bind_eq_ok.2 ⟨a, hfold, except_bind_eq_ok.2 ⟨_, hdescend, rfl⟩⟩

def Reaches (fs : FileSystem) (path : String) (a : List String) (x : String × Entry) : Prop :=
  ∃ names, (∀ n ∈ names, IsName n) ∧ parts x.1 = parts path ++ names.map .name ∧
    fs.locate x.1 = .ok (a ++ names) ∧ fs.at? (a ++ names) = some x.2

theorem walkBelow_reaches (hfs : fs.Proper) {depth : Nat} (hpath : fs.locate path = .ok a)
    (hdir : fs.at? a = some .directory) : ∀ x ∈ fs.walkBelow depth a path, fs.Reaches path a x := by
  induction depth generalizing a path with
  | zero => exact nofun
  | succ depth ih =>
    intro x hx
    obtain ⟨name, hname, hx⟩ := List.mem_flatMap.1 hx
    obtain ⟨e, he, hmem⟩ := mem_entries_of_mem_names hname
    have hproper := hfs e he name hmem
    have hlocated := locate_name hpath hdir hproper.1 hproper.2.1 hproper.2.2
    have hparts := parts_join (locate_eq_ok.1 hpath).2.1 hproper.1
    have hone {e : Entry} (he : fs.at? (a ++ [name]) = some e) : fs.Reaches path a (join path name, e) :=
      ⟨[name], by simpa using hproper.1, hparts, hlocated, he⟩
    dsimp only at hx
    split at hx
    · next hinner =>
      rcases List.mem_cons.1 hx with rfl | hx
      · exact hone hinner
      · obtain ⟨names, hnames, hrest, hplace, hentry⟩ := ih hlocated hinner x hx
        refine ⟨name :: names, List.forall_mem_cons.2 ⟨hproper.1, hnames⟩, ?_, ?_, ?_⟩
        · rw [hrest, hparts, List.append_assoc]
          rfl
        · rw [hplace, List.append_assoc]
          rfl
        · rw [← hentry, List.append_assoc]
          rfl
    · next e _ he =>
      rw [List.mem_singleton.1 hx]
      exact hone he
    · cases hx

theorem walk_reaches (hfs : fs.Proper) {depth : Nat} {x : String × Entry} (hx : x ∈ fs.walk depth path) :
    ∃ a, fs.Reaches path a x := by
  rw [walk] at hx
  split at hx
  · next a hpath =>
    split at hx
    · next hdir => exact ⟨a, walkBelow_reaches hfs hpath hdir x hx⟩
    · cases hx
  · cases hx

/-! ### What inputs stand for -/

/-- A file that is met for an input, and that is written with names only if the input is. -/
def MetFor (fs : FileSystem) (path p : String) : Prop :=
  fs.isFile p = true ∧ ∀ absolute, Along absolute path → Along absolute p

theorem along_of_parts {absolute : Bool} {names : List String} (h : Along absolute path) (hnames : ∀ n ∈ names, IsName n)
    (hparts : parts p = parts path ++ names.map .name) : Along absolute p := by
  obtain ⟨before, hbefore, hpath⟩ := h
  refine ⟨before ++ names, fun n hn => (List.mem_append.1 hn).elim (hbefore n) (hnames n), ?_⟩
  rw [hparts, hpath, along, along, List.map_append, List.append_assoc]

theorem xmlFilesIn_met (hfs : fs.Proper) {recurse : Bool} (hp : p ∈ fs.xmlFilesIn path recurse) : fs.MetFor path p := by
  obtain ⟨x, hx, hfile⟩ := List.mem_filterMap.1 hp
  obtain ⟨a, names, hnames, hparts, hplace, hentry⟩ := walk_reaches hfs hx
  split at hfile
  · cases hfile
  · next hne =>
    split at hfile
    · cases hfile
      exact ⟨isFile_iff.2 ⟨_, _, hplace, hentry, hne⟩, fun _ h => along_of_parts h hnames hparts⟩
    · cases hfile

theorem literalParts_along {absolute : Bool} (h : Along absolute path) :
    ∃ front : List String, (∀ n ∈ front, IsName n) ∧ Pattern.literalParts path = along absolute front := by
  obtain ⟨names, hnames, hpath⟩ := h
  refine ⟨names.takeWhile fun n => !Pattern.isPattern n, fun n hn => hnames n ((List.takeWhile_sublist _).mem hn), ?_⟩
  have hroot : Pattern.isPattern Part.root.text = false := by decide
  have htake : (names.map Part.name).takeWhile (fun p => !Pattern.isPattern p.text) =
      (names.takeWhile fun n => !Pattern.isPattern n).map .name := List.takeWhile_map
  rw [Pattern.literalParts, hpath]
  cases absolute with
  | true => simp [along, hroot, htake]
  | false => simpa [along] using htake

/-- Without the dot in front, what is found below the working directory is written with names only. -/
theorem along_dropHere {names : List String} (hnames : ∀ n ∈ names, IsName n)
    (hparts : parts p = .here :: names.map .name) : Along false (dropHere p) := by
  have hdrop : (names.map Part.name).dropWhile (· = .here) = names.map .name := by
    cases names <;> rfl
  have hwhole : names.map Part.name = along false names := rfl
  refine ⟨names, hnames, ?_⟩
  rw [dropHere, hparts, List.dropWhile_cons_of_pos (by rfl), hdrop, hwhole]
  exact parts_ofParts_along hnames

theorem matching_along (hfs : fs.Proper) {ps : List Pattern} {absolute : Bool} (h : Along absolute path)
    (hp : p ∈ fs.matching path ps) : Along absolute p := by
  obtain ⟨front, hfront, hliteral⟩ := literalParts_along h
  rw [matching, hliteral, List.mem_filter] at hp
  replace hp := hp.1
  split at hp
  · next hnone =>
    obtain rfl : absolute = false := by
      cases absolute with
      | true => cases hnone
      | false => rfl
    obtain ⟨x, hx, rfl⟩ := List.mem_map.1 hp
    obtain ⟨a, names, hnames, hparts, -, -⟩ := walk_reaches hfs hx
    exact along_dropHere hnames hparts
  · obtain ⟨x, hx, rfl⟩ := List.mem_map.1 hp
    obtain ⟨a, names, hnames, hparts, -, -⟩ := walk_reaches hfs hx
    exact along_of_parts ⟨front, hfront, parts_ofParts_along hfront⟩ hnames hparts

/-- All that an input stands for are files. -/
theorem expandInput_met (hfs : fs.Proper) {recurse : Bool} (h : fs.expandInput input recurse = .ok files)
    (hp : p ∈ files) : fs.MetFor (fs.expandTilde input) p := by
  rw [expandInput] at h
  dsimp only at h
  split at h
  · next hfile =>
    cases h
    rw [List.mem_singleton.1 hp]
    exact ⟨hfile, fun _ h => h⟩
  · split at h
    · cases h
      exact xmlFilesIn_met hfs hp
    · split at h
      · cases h
      · split at h
        · cases h
        · split at h
          · cases h
          · cases h
            obtain ⟨found, hfound, hp⟩ := List.mem_flatMap.1 hp
            have halong (absolute : Bool) (h : Along absolute (fs.expandTilde input)) : Along absolute found :=
              matching_along hfs h hfound
            split at hp
            · next hfile =>
              rw [List.mem_singleton.1 hp]
              exact ⟨hfile, halong⟩
            · split at hp
              · have hmet := xmlFilesIn_met hfs hp
                exact ⟨hmet.1, fun absolute h => hmet.2 absolute (halong absolute h)⟩
              · cases hp

/-! ### First spellings -/

def firsts (found : List String) : List String :=
  found.zipIdx.filterMap fun e => if (found.take e.2).any (same e.1) then none else some e.1

section Firsts
variable {found : List String}

theorem firsts_concat (found : List String) (p : String) :
    firsts (found ++ [p]) = firsts found ++ if found.any (same p) then [] else [p] := by
  have hbefore : (found.zipIdx.filterMap fun e =>
      if ((found ++ [p]).take e.2).any (same e.1) then none else some e.1) = firsts found := by
    refine List.filterMap_congr fun e he => ?_
    have hlt : e.2 < found.length := by
      have hmem := List.mem_zipIdx he
      omega
    rw [List.take_append_of_le_length (Nat.le_of_lt hlt)]
  have htake : (found ++ [p]).take found.length = found := List.take_left' rfl
  rw [firsts, List.zipIdx_append, List.filterMap_append, hbefore]
  simp only [List.zipIdx_singleton, Nat.zero_add, List.filterMap_cons, List.filterMap_nil, htake]
  by_cases hp : found.any (same p) = true
  · rw [if_pos hp, if_pos hp]
  · rw [if_neg hp, if_neg hp]

theorem any_firsts (p : String) (found : List String) : (firsts found).any (same p) = found.any (same p) := by
  induction found using List.reverseRecOn with
  | nil => rfl
  | append_singleton found q ih =>
    rw [firsts_concat, List.any_append, List.any_append, ih]
    by_cases hq : found.any (same q) = true
    · -- what has the parts of a repeat has those of its first spelling
      obtain ⟨r, hr, hqr⟩ := List.any_eq_true.1 hq
      rw [if_pos hq]
      by_cases hpq : same p q = true
      · have hpr : same p r = true := by
          rw [same, decide_eq_true_eq] at hpq hqr ⊢
          exact hpq.trans hqr
        have hany : found.any (same p) = true := List.any_eq_true.2 ⟨r, hr, hpr⟩
        simp [hany]
      · simp [hpq]
    · rw [if_neg hq]

theorem firsts_subset (found : List String) : firsts found ⊆ found := by
  intro p hp
  obtain ⟨e, he, hkept⟩ := List.mem_filterMap.1 hp
  split at hkept
  · cases hkept
  · cases hkept
    exact List.fst_mem_of_mem_zipIdx he

theorem firsts_pairwise (found : List String) : (firsts found).Pairwise fun p q => same p q = false := by
  induction found using List.reverseRecOn with
  | nil => exact .nil
  | append_singleton found q ih =>
    rw [firsts_concat, List.pairwise_append]
    refine ⟨ih, ?_, fun p hp r hr => ?_⟩
    · split
      · exact .nil
      · exact List.pairwise_singleton _ _
    · split at hr
      · cases hr
      · next hnew =>
        rw [List.mem_singleton.1 hr]
        rw [List.any_eq_true, not_exists] at hnew
        have hne := hnew p
        rw [same, decide_eq_true_eq] at hne
        rw [same, decide_eq_false_iff_not]
        exact fun h => hne ⟨firsts_subset found hp, h.symm⟩

theorem exists_first (hp : p ∈ found) : ∃ q ∈ firsts found, same p q = true := by
  have hself : found.any (same p) = true := List.any_eq_true.2 ⟨p, hp, decide_eq_true rfl⟩
  rw [← any_firsts] at hself
  exact List.any_eq_true.1 hself

theorem addPaths_concat (paths ps : List String) (p : String) : addPaths paths (ps ++ [p]) =
    addPaths paths ps ++ if (addPaths paths ps).any (same p) then [] else [p] := by
  induction ps generalizing paths with
  | nil =>
    show (if paths.any (same p) then paths else paths ++ [p]) = paths ++ if paths.any (same p) then [] else [p]
    by_cases hp : paths.any (same p) = true
    · rw [if_pos hp, if_pos hp, List.append_nil]
    · rw [if_neg hp, if_neg hp]
  | cons q ps ih => exact ih _

theorem addPaths_eq_firsts (found : List String) : addPaths [] found = firsts found := by
  induction found using List.reverseRecOn with
  | nil => rfl
  | append_singleton found p ih => rw [addPaths_concat, firsts_concat, ih, any_firsts]

end Firsts

/-! ### All inputs -/

def EachOnce (fs : FileSystem) (files : List String) : Prop :=
  files.Pairwise fun p q => ∀ a, fs.locate p = .ok a → fs.locate q ≠ .ok a

theorem eachOnce_firsts_iff {found : List String} (hfiles : ∀ p ∈ found, fs.isFile p = true) :
    fs.EachOnce (firsts found) ↔ ∀ p ∈ found, ∀ q ∈ found, ∀ a,
      fs.locate p = .ok a → fs.locate q = .ok a → same p q = true := by
  constructor
  · intro hall p hp q hq a hpa hqa
    have hlead {p : String} (hp : p ∈ found) (hpa : fs.locate p = .ok a) :
        ∃ r ∈ firsts found, parts p = parts r ∧ fs.locate r = .ok a := by
      obtain ⟨r, hr, hsame⟩ := exists_first hp
      obtain ⟨b, -, hb, -, -⟩ := isFile_iff.1 (hfiles r (firsts_subset found hr))
      rw [← locate_same hsame hpa hb] at hb
      exact ⟨r, hr, of_decide_eq_true hsame, hb⟩
    obtain ⟨r, hr, hpr, hra⟩ := hlead hp hpa
    obtain ⟨r', hr', hqr, hra'⟩ := hlead hq hqa
    have hsymm : Std.Symm fun p q => ∀ a, fs.locate p = .ok a → fs.locate q ≠ .ok a :=
      ⟨fun _ _ h a hq hp => h a hp hq⟩
    have heq : r = r' := Decidable.byContradiction fun hne => hall.forall hr hr' hne a hra hra'
    rw [same, hpr, hqr, heq, decide_eq_true rfl]
  · intro hsame
    refine (firsts_pairwise found).imp_of_mem fun {p q} hp hq hdiffer a hpa hqa => ?_
    have h := hsame p (firsts_subset found hp) q (firsts_subset found hq) a hpa hqa
    rw [hdiffer] at h
    cases h

theorem discover_eq_ok {inputs : List String} {recurse : Bool} : fs.discover inputs recurse = .ok files ↔
    ∃ expansions, (inputs.mapM fun i => fs.expandInput i recurse) = .ok expansions ∧ files = firsts expansions.flatten := by
  rw [discover, except_map_eq_ok]
  simp only [addPaths_eq_firsts, eq_comm]

/-- Of the paths that all inputs stand for, those are kept, in their order, whose parts none before them has, so
nothing that is met is missing. A file is there twice exactly if two paths lead to it that have different parts. That
does not happen if no input has dots and steps up in it and all of them, or none, begin at the root. -/
theorem discovered_once_iff (hfs : fs.Proper) {inputs : List String} {recurse : Bool}
    (h : fs.discover inputs recurse = .ok files) :
    ∃ expansions, (inputs.mapM fun i => fs.expandInput i recurse) = .ok expansions ∧
      files = firsts expansions.flatten ∧
      (∀ p ∈ expansions.flatten, fs.isFile p = true ∧ ∃ q ∈ files, same p q = true ∧ fs.locate q = fs.locate p) ∧
      (fs.EachOnce files ↔ ∀ p ∈ expansions.flatten, ∀ q ∈ expansions.flatten, ∀ a,
        fs.locate p = .ok a → fs.locate q = .ok a → same p q = true) ∧
      ((∃ absolute, ∀ i ∈ inputs, Straight (fs.expandTilde i) ∧ isAbsolute (fs.expandTilde i) = absolute) →
        fs.EachOnce files) := by
  obtain ⟨expansions, hexpansions, rfl⟩ := discover_eq_ok.1 h
  have hmet {P : String → Prop} (hP : ∀ i ∈ inputs, ∀ p, fs.MetFor (fs.expandTilde i) p → P p) :
      ∀ p ∈ expansions.flatten, P p := by
    intro p hp
    obtain ⟨found, hfound, hp⟩ := List.mem_flatten.1 hp
    exact forall_of_mapM (P := fun found => ∀ p ∈ found, P p)
      (fun i hi found hi' p hp => hP i hi p (expandInput_met hfs hi' hp)) hexpansions found hfound p hp
  have hfiles : ∀ p ∈ expansions.flatten, fs.isFile p = true := hmet fun _ _ _ h => h.1
  have honce := eachOnce_firsts_iff hfiles
  refine ⟨expansions, hexpansions, rfl, fun p hp => ⟨hfiles p hp, ?_⟩, honce, ?_⟩
  · obtain ⟨q, hq, hsame⟩ := exists_first hp
    obtain ⟨a, -, ha, -, -⟩ := isFile_iff.1 (hfiles p hp)
    obtain ⟨b, -, hb, -, -⟩ := isFile_iff.1 (hfiles q (firsts_subset _ hq))
    refine ⟨q, hq, hsame, ?_⟩
    rw [ha, hb, locate_same hsame ha hb]
  · rintro ⟨absolute, hinputs⟩
    have halong : ∀ p ∈ expansions.flatten, Along absolute p := by
      refine hmet fun i hi p hp => hp.2 absolute ?_
      have hstraight := (hinputs i hi).1.along
      rwa [(hinputs i hi).2] at hstraight
    exact honce.2 fun p hp q hq a hpa hqa => same_of_along (halong p hp) (halong q hq) hpa hqa

def albumFiles : FileSystem :=
  ⟨[(["albums"], .directory), (["albums", "a.xml"], .file []), (["albums", "b.xml"], .file [])], [], none⟩

def albumInputs : List String := ["albums", "albums//b.xml"]

theorem albumFiles_discover : albumFiles.discover albumInputs false = .ok ["albums/a.xml", "albums/b.xml"] := by
  have hnames : albumFiles.names ["albums"] = ["a.xml", "b.xml"] := List.mergeSort_of_pairwise (by decide)
  have hlocate : albumFiles.locate "albums" = .ok ["albums"] := by decide +kernel
  have hdirectory : albumFiles.at? ["albums"] = some .directory := rfl
  have hwalk : albumFiles.walk 1 "albums" = [("albums/a.xml", .file []), ("albums/b.xml", .file [])] := by
    rw [walk, hlocate]
    dsimp only
    rw [hdirectory]
    dsimp only
    rw [walkBelow, hnames]
    decide +kernel
  have hfiles : albumFiles.xmlFilesIn "albums" false = ["albums/a.xml", "albums/b.xml"] := by
    rw [xmlFilesIn, if_neg Bool.false_ne_true, hwalk]
    decide +kernel
  have hfirst : albumFiles.expandInput "albums" false = .ok ["albums/a.xml", "albums/b.xml"] := by
    have hfile : albumFiles.isFile (albumFiles.expandTilde "albums") = false := by decide +kernel
    have hinside : albumFiles.isDirectory (albumFiles.expandTilde "albums") = true := by decide +kernel
    rw [expandInput]
    dsimp only
    rw [hfile, if_neg Bool.false_ne_true, hinside, if_pos rfl, ← hfiles]
    rfl
  have hsecond : albumFiles.expandInput "albums//b.xml" false = .ok ["albums//b.xml"] := by decide +kernel
  refine discover_eq_ok.2 ⟨[["albums/a.xml", "albums/b.xml"], ["albums//b.xml"]], ?_, by decide +kernel⟩
  exact mapM_cons_eq_ok.2 ⟨_, _, hfirst, mapM_cons_eq_ok.2 ⟨_, _, hsecond, rfl, rfl⟩, rfl⟩

theorem discovered_once_iff_albums : albumFiles.Proper ∧
    albumFiles.discover albumInputs false = .ok ["albums/a.xml", "albums/b.xml"] ∧
    (∃ absolute, ∀ i ∈ albumInputs, Straight (albumFiles.expandTilde i) ∧
      isAbsolute (albumFiles.expandTilde i) = absolute) ∧
    albumFiles.EachOnce ["albums/a.xml", "albums/b.xml"] := by
  have hproper : albumFiles.Proper := by decide +kernel
  have hinputs : ∃ absolute, ∀ i ∈ albumInputs, Straight (albumFiles.expandTilde i) ∧
      isAbsolute (albumFiles.expandTilde i) = absolute := ⟨false, by decide +kernel⟩
  obtain ⟨_, _, _, _, _, hstraight⟩ := discovered_once_iff hproper albumFiles_discover
  exact ⟨hproper, albumFiles_discover, hinputs, hstraight hinputs⟩

/-- A file is met twice, with and without a dot in front. -/
theorem dotted_file_repeated : ∃ files, albumFiles.discover ["albums/a.xml", "./albums/a.xml"] false = .ok files ∧
    files = ["albums/a.xml", "./albums/a.xml"] ∧ ¬albumFiles.EachOnce files := by
  have hfound : albumFiles.discover ["albums/a.xml", "./albums/a.xml"] false =
      .ok ["albums/a.xml", "./albums/a.xml"] := by decide +kernel
  refine ⟨_, hfound, rfl, fun honce => ?_⟩
  have hplain : albumFiles.locate "albums/a.xml" = .ok ["albums", "a.xml"] := by decide +kernel
  have hdotted : albumFiles.locate "./albums/a.xml" = .ok ["albums", "a.xml"] := by decide +kernel
  exact (List.pairwise_cons.1 honce).1 _ List.mem_cons_self _ hplain hdotted

end Tabulate.FileSystem
