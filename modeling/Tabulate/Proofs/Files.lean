import Tabulate.Files.System
import Tabulate.Proofs.Effects

/-! What writing does to the files. Paths lead over directories alone, so as long as no directory comes
or goes a path leads to the same place, and what is put there is seen under no other place. -/
namespace Tabulate

open Effects

def Entry.bytes? : Entry → Option (List UInt8)
  | file bytes => some bytes
  | directory => none
  | database _ => some FileSystem.databaseBytes

namespace FileSystem

/-! ### Entries -/

theorem lookup_map_set (es : List (List String × Entry)) (a b : List String) (e : Entry) :
    (es.map fun x => if x.1 = a then (a, e) else x).lookup b =
      if b = a then (es.lookup a).map (fun _ => e) else es.lookup b := by
  induction es with
  | nil => simp
  | cons x es ih =>
    obtain ⟨k, old⟩ := x
    rw [List.map_cons, List.lookup_cons, ih]
    by_cases hk : k = a <;> by_cases hb : b = a
    · simp [hk, hb]
    · simp [hk, hb, List.lookup_cons, beq_false_of_ne hb]
    · simp [hk, hb, List.lookup_cons, beq_false_of_ne (Ne.symm hk)]
    · simp [hk, hb, List.lookup_cons]

theorem at?_set (fs : FileSystem) {a : List String} (ha : a ≠ []) (e : Entry) (b : List String) :
    (fs.set a e).at? b = if b = a then some e else fs.at? b := by
  have ha' : a.isEmpty = false := List.isEmpty_eq_false_iff.2 ha
  unfold at? set
  cases ho : fs.entries.lookup a with
  | none =>
    simp only [Option.isSome_none, Bool.false_eq_true, if_false, List.lookup_append]
    by_cases hb : b = a
    · simp [hb, ha', ho]
    · cases fs.entries.lookup b <;> simp [hb, List.lookup_cons, beq_false_of_ne hb]
  | some old =>
    simp only [Option.isSome_some, if_true, lookup_map_set, ho, Option.map_some]
    by_cases hb : b = a
    · simp [hb, ha']
    · simp [hb]

@[simp] theorem workingDirectory_set (fs : FileSystem) (a : List String) (e : Entry) :
    (fs.set a e).workingDirectory = fs.workingDirectory := by
  unfold set
  split <;> rfl

theorem ne_nil_of_at? {fs : FileSystem} {a : List String} (ha : fs.at? a ≠ some .directory) : a ≠ [] := by
  rintro rfl
  exact ha rfl

/-! ### Where paths lead -/

def origin (fs : FileSystem) (path : String) : List String :=
  if FilePath.isAbsolute path then [] else fs.workingDirectory

def endsInSlash (path : String) : Prop := path.toList.getLast? = some '/'

theorem locate_eq_ok {fs : FileSystem} {path : String} {a : List String} :
    fs.locate path = .ok a ↔
      path.toList.contains (Char.ofNat 0) = false ∧ path.isEmpty = false ∧
      (FilePath.pieces path).foldlM fs.descend (fs.origin path) = .ok a ∧
      (endsInSlash path → fs.at? a = none ∨ fs.at? a = some .directory) := by
  rw [locate, origin, endsInSlash]
  cases path.toList.contains (Char.ofNat 0) with
  | true => exact ⟨nofun, nofun⟩
  | false =>
    cases path.isEmpty with
    | true => exact ⟨nofun, nofun⟩
    | false =>
      simp only [Bool.false_eq_true, if_false, true_and]
      cases hf : (FilePath.pieces path).foldlM fs.descend _ with
      | error fault => exact ⟨nofun, nofun⟩
      | ok b =>
        by_cases hs : path.toList.getLast? = some '/'
        · cases hb : fs.at? b with
          | none =>
            simp only [hs, bind, Except.bind, pure, Except.pure, hb, if_true]
            grind
          | some e => cases e <;> simp [hs, bind, Except.bind, pure, Except.pure, hb] <;> grind
        · simp [hs, bind, Except.bind, pure, Except.pure]

/-- All directories stay where they are. -/
structure KeepsDirectories (fs fs' : FileSystem) : Prop where
  workingDirectory : fs'.workingDirectory = fs.workingDirectory
  directory : ∀ a, fs.at? a = some .directory → fs'.at? a = some .directory

namespace KeepsDirectories
variable {fs fs' fs'' : FileSystem} {a b : List String}

theorem refl (fs : FileSystem) : KeepsDirectories fs fs := ⟨rfl, fun _ h => h⟩

theorem trans (h : KeepsDirectories fs fs') (h' : KeepsDirectories fs' fs'') : KeepsDirectories fs fs'' where
  workingDirectory := h'.workingDirectory.trans h.workingDirectory
  directory a ha := h'.directory a (h.directory a ha)

theorem descend (h : KeepsDirectories fs fs') {piece : String} (hd : fs.descend a piece = .ok b) :
    fs'.descend a piece = .ok b := by
  unfold FileSystem.descend at hd ⊢
  split at hd
  · cases hd
  · next ha => rwa [h.directory a ha]
  · cases hd

theorem foldlM_descend (h : KeepsDirectories fs fs') {pieces : List String}
    (hd : pieces.foldlM fs.descend a = .ok b) : pieces.foldlM fs'.descend a = .ok b := by
  induction pieces generalizing a with
  | nil => exact hd
  | cons piece pieces ih =>
    rw [List.foldlM_cons] at hd ⊢
    obtain ⟨c, hp, hd⟩ := except_bind_eq_ok.1 hd
    exact except_bind_eq_ok.2 ⟨c, h.descend hp, ih hd⟩

/-- A path that does not ask for a directory leads where it has led. -/
theorem locate (h : KeepsDirectories fs fs') {path : String}
    (hs : endsInSlash path → fs.at? a = some .directory) (hl : fs.locate path = .ok a) :
    fs'.locate path = .ok a := by
  obtain ⟨hnul, hempty, hfold, -⟩ := locate_eq_ok.1 hl
  refine locate_eq_ok.2 ⟨hnul, hempty, ?_, fun hp => .inr (h.directory a (hs hp))⟩
  rw [origin, h.workingDirectory]
  exact h.foldlM_descend hfold

end KeepsDirectories

def SameDirectories (fs fs' : FileSystem) : Prop := KeepsDirectories fs fs' ∧ KeepsDirectories fs' fs

theorem keepsDirectories_set {fs : FileSystem} {a : List String} (ha : fs.at? a ≠ some .directory)
    (e : Entry) : KeepsDirectories fs (fs.set a e) where
  workingDirectory := workingDirectory_set fs a e
  directory b hb := by
    have hba : b ≠ a := fun h => ha (h ▸ hb)
    rw [at?_set fs (ne_nil_of_at? ha), if_neg hba, hb]

theorem sameDirectories_set {fs : FileSystem} {a : List String} (ha : fs.at? a ≠ some .directory)
    {e : Entry} (he : e ≠ .directory) : SameDirectories fs (fs.set a e) := by
  refine ⟨keepsDirectories_set ha e, (workingDirectory_set fs a e).symm, fun b hb => ?_⟩
  rw [at?_set fs (ne_nil_of_at? ha)] at hb
  split at hb
  · exact absurd (Option.some.inj hb) he
  · exact hb

namespace SameDirectories
variable {fs fs' fs'' : FileSystem}

theorem refl (fs : FileSystem) : SameDirectories fs fs := ⟨.refl fs, .refl fs⟩

theorem trans (h : SameDirectories fs fs') (h' : SameDirectories fs' fs'') : SameDirectories fs fs'' :=
  ⟨h.1.trans h'.1, h'.2.trans h.2⟩

theorem locate_iff (h : SameDirectories fs fs') {path : String} (hs : ¬endsInSlash path)
    {a : List String} : fs'.locate path = .ok a ↔ fs.locate path = .ok a :=
  ⟨h.2.locate (absurd · hs), h.1.locate (absurd · hs)⟩

end SameDirectories

/-! ### What files hold -/

def content? (fs : FileSystem) (path : String) : Option (List UInt8) := (fs.read path).toOption

section Append
variable {fs fs' : FileSystem} {path : String} {bytes : List UInt8} {a : List String}

theorem content?_of_locate (h : fs.locate path = .ok a) : fs.content? path = (fs.at? a).bind Entry.bytes? := by
  rw [content?, read, entry, h]
  cases ha : fs.at? a with
  | none => simp [bind, Except.bind, ha]; rfl
  | some e => cases e <;> simp [bind, Except.bind, ha] <;> rfl

theorem content?_of_no_place (h : ∀ a, fs.locate path ≠ .ok a) : fs.content? path = none := by
  rw [content?, read, entry]
  cases hl : fs.locate path with
  | error fault => rfl
  | ok a => exact absurd hl (h a)

/-- What is read from a path is at its place, which no path that asks for a directory leads to. -/
theorem content?_eq_some (h : fs.content? path = some bytes) :
    ∃ a, fs.locate path = .ok a ∧ ¬endsInSlash path ∧ (fs.at? a).bind Entry.bytes? = some bytes := by
  by_cases hl : ∃ a, fs.locate path = .ok a
  · obtain ⟨a, hl⟩ := hl
    rw [content?_of_locate hl] at h
    refine ⟨a, hl, fun hs => ?_, h⟩
    rcases (locate_eq_ok.1 hl).2.2.2 hs with hnone | hdir
    · simp [hnone] at h
    · simp [hdir, Entry.bytes?] at h
  · rw [content?_of_no_place (not_exists.1 hl)] at h
    cases h

/-- Bytes are appended at the place of the path, where no directory is. -/
theorem append_eq_ok (h : fs.append path bytes = .ok fs') : ∃ a, fs.locate path = .ok a ∧
    fs.at? a ≠ some .directory ∧ ¬endsInSlash path ∧
    fs' = fs.set a (.file ((fs.content? path).getD [] ++ bytes)) := by
  obtain ⟨a, hl, h⟩ := except_bind_eq_ok.1 h
  have hslash := (locate_eq_ok.1 hl).2.2.2
  rw [content?_of_locate hl]
  refine ⟨a, hl, ?_⟩
  cases ha : fs.at? a with
  | none =>
    simp only [ha] at h
    split at h
    · cases h
    · next hs =>
      cases h
      exact ⟨nofun, hs, rfl⟩
  | some e =>
    have hfile (he : e ≠ .directory) : ¬endsInSlash path := fun hs => by
      rcases hslash hs with hn | hd
      · exact absurd (ha.symm.trans hn) nofun
      · exact he (Option.some.inj (ha.symm.trans hd))
    simp only [ha] at h
    cases e with
    | file before =>
      cases h
      exact ⟨nofun, hfile nofun, rfl⟩
    | directory => cases h
    | database d =>
      cases h
      exact ⟨nofun, hfile nofun, rfl⟩

theorem sameDirectories_append (h : fs.append path bytes = .ok fs') : SameDirectories fs fs' := by
  obtain ⟨a, -, ha, -, rfl⟩ := append_eq_ok h
  exact sameDirectories_set ha nofun

theorem at?_append (h : fs.append path bytes = .ok fs') {b : List String} (hb : fs.locate path ≠ .ok b) :
    fs'.at? b = fs.at? b := by
  obtain ⟨a, hl, ha, -, rfl⟩ := append_eq_ok h
  have hba : b ≠ a := fun h => hb (h ▸ hl)
  rw [at?_set fs (ne_nil_of_at? ha), if_neg hba]

theorem content?_append (h : fs.append path bytes = .ok fs') :
    fs'.content? path = some ((fs.content? path).getD [] ++ bytes) := by
  have hd := sameDirectories_append h
  obtain ⟨a, hl, ha, hs, rfl⟩ := append_eq_ok h
  rw [content?_of_locate ((hd.locate_iff hs).2 hl), at?_set fs (ne_nil_of_at? ha), if_pos rfl]
  rfl

/-- What is read from a path stays while its place is left alone. -/
theorem SameDirectories.content? (h : SameDirectories fs fs') (hs : ¬endsInSlash path)
    (ha : ∀ a, fs.locate path = .ok a → fs'.at? a = fs.at? a) : fs'.content? path = fs.content? path := by
  by_cases hl : ∃ a, fs.locate path = .ok a
  · obtain ⟨a, hl⟩ := hl
    rw [content?_of_locate ((h.locate_iff hs).2 hl), content?_of_locate hl, ha a hl]
  · rw [not_exists] at hl
    rw [content?_of_no_place hl, content?_of_no_place fun a => mt (h.locate_iff hs).1 (hl a)]

theorem at?_of_not_exists (h : fs.exists? path = false) (hl : fs.locate path = .ok a) : fs.at? a = none := by
  cases ha : fs.at? a with
  | none => rfl
  | some e =>
    have hentry : fs.entry path = .ok e := by
      rw [entry, hl]
      simp [bind, Except.bind, ha]
      rfl
    rw [exists?, hentry] at h
    cases h

theorem content?_of_not_exists (h : fs.exists? path = false) : fs.content? path = none := by
  by_cases hl : ∃ a, fs.locate path = .ok a
  · obtain ⟨a, hl⟩ := hl
    rw [content?_of_locate hl, at?_of_not_exists h hl]
    rfl
  · exact content?_of_no_place (not_exists.1 hl)

/-- A file that can be appended to is there if and only if something can be read from it. -/
theorem exists?_of_append (h : fs.append path bytes = .ok fs') :
    fs.exists? path = (fs.content? path).isSome := by
  obtain ⟨a, hl, ha, -, -⟩ := append_eq_ok h
  rw [content?_of_locate hl, exists?, entry, hl]
  cases he : fs.at? a with
  | none => simp [bind, Except.bind, he]; rfl
  | some e =>
    cases e with
    | directory => exact absurd he ha
    | file bytes => simp [bind, Except.bind, he]; rfl
    | database d => simp [bind, Except.bind, he]; rfl

end Append

/-- Whatever can be read can be read again, perhaps with more behind it. -/
def Lengthens (fs fs' : FileSystem) : Prop :=
  ∀ path bytes, fs.content? path = some bytes → ∃ bytes', fs'.content? path = some bytes' ∧ bytes <+: bytes'

theorem Lengthens.trans {fs fs' fs'' : FileSystem} (h : Lengthens fs fs') (h' : Lengthens fs' fs'') :
    Lengthens fs fs'' := by
  intro path bytes hbytes
  obtain ⟨more, hmore, hpre⟩ := h path bytes hbytes
  obtain ⟨all, hall, hpre'⟩ := h' path more hmore
  exact ⟨all, hall, hpre.trans hpre'⟩

/-- What is the same in the end was the same all the time. -/
theorem Lengthens.between {fs fs' fs'' : FileSystem} (h : Lengthens fs fs') (h' : Lengthens fs' fs'')
    {path : String} (hsame : fs''.content? path = fs.content? path) : fs'.content? path = fs.content? path := by
  cases hb : fs.content? path with
  | none =>
    cases hc : fs'.content? path with
    | none => rfl
    | some bytes =>
      obtain ⟨more, hmore, -⟩ := h' path bytes hc
      rw [hsame, hb] at hmore
      cases hmore
  | some bytes =>
    obtain ⟨more, hmore, hpre⟩ := h path bytes hb
    obtain ⟨all, hall, hpre'⟩ := h' path more hmore
    rw [hsame, hb] at hall
    obtain rfl := Option.some.inj hall
    rw [hmore, hpre.eq_of_length (Nat.le_antisymm hpre.length_le hpre'.length_le)]

theorem lengthens_of_keeps {fs fs' : FileSystem} (hk : KeepsDirectories fs fs')
    (h : ∀ a bytes, (fs.at? a).bind Entry.bytes? = some bytes →
      ∃ bytes', (fs'.at? a).bind Entry.bytes? = some bytes' ∧ bytes <+: bytes') : Lengthens fs fs' := by
  intro path bytes hbytes
  obtain ⟨a, hloc, hslash, hat⟩ := content?_eq_some hbytes
  rw [content?_of_locate (hk.locate (absurd · hslash) hloc)]
  exact h a bytes hat

end FileSystem

/-! ### Files in one directory -/

namespace FilePath

def Plain (name : String) : Prop := '/' ∉ name.toList

instance (name : String) : Decidable (Plain name) := inferInstanceAs (Decidable (_ ∉ _))

variable {directory name : String}

theorem isAbsolute_of_plain (hn : Plain name) : isAbsolute name = false := by
  rw [isAbsolute, decide_eq_false_iff_not]
  exact fun h => hn (List.mem_of_mem_head? h)

/-- What stands behind a slash has pieces of its own. -/
theorem pieces_slash {path : String} (cs ds : List Char) (h : path.toList = cs ++ '/' :: ds) :
    pieces path = pieces (String.ofList cs) ++ pieces (String.ofList ds) := by
  simp [pieces, h, List.splitOn_append_cons_self]

theorem pieces_of_plain (hn : Plain name) (hempty : name.isEmpty = false) : pieces name = [name] := by
  have hname : name.toList.isEmpty = false := by simpa using hempty
  simp [pieces, List.splitOn_eq_singleton hn, hname]

theorem pieces_join (hn : isAbsolute name = false) :
    pieces (join directory name) = pieces directory ++ pieces name := by
  have hnil : pieces "" = [] := rfl
  rw [join, hn, if_neg Bool.false_ne_true]
  by_cases hd : directory = ""
  · simp [hd, hnil]
  · by_cases hslash : directory.toList.getLast? = some '/'
    · obtain ⟨cs, hcs⟩ := List.getLast?_eq_some_iff.1 hslash
      have hdirectory : pieces directory = pieces (String.ofList cs) := by
        rw [pieces_slash cs [] hcs]
        exact List.append_nil _
      rw [if_pos (by simp [hslash]), hdirectory, pieces_slash cs name.toList (by simp [hcs]), String.ofList_toList]
    · rw [if_neg (by simp [hd, hslash]), pieces_slash directory.toList name.toList (by simp), String.ofList_toList,
        String.ofList_toList]

theorem toList_join (directory name : String) : ∃ front, (join directory name).toList = front ++ name.toList ∧
    ∀ c ∈ front, c ∈ directory.toList ∨ c = '/' := by
  rw [join]
  split
  · exact ⟨[], rfl, nofun⟩
  · split
    · exact ⟨directory.toList, String.toList_append .., fun c hc => .inl hc⟩
    · refine ⟨directory.toList ++ ['/'], by simp, fun c hc => ?_⟩
      simpa using hc

theorem isAbsolute_join (hn : isAbsolute name = false) : isAbsolute (join directory name) = isAbsolute directory := by
  rw [join, hn, if_neg Bool.false_ne_true]
  by_cases hd : directory = ""
  · subst hd
    simpa [isAbsolute] using hn
  · have hne : directory.toList ≠ [] := fun h => hd (by simpa using h)
    obtain ⟨c, cs, hcs⟩ := List.exists_cons_of_ne_nil hne
    split <;> simp [isAbsolute, hcs]

end FilePath

namespace FileSystem

theorem descend_name {fs : FileSystem} {a b : List String} {name : String} (hdot : name ≠ ".")
    (hup : name ≠ "..") (h : fs.descend b name = .ok a) : a = b ++ [name] := by
  rw [descend, if_neg hdot, if_neg hup] at h
  split at h
  · cases h
  · split at h
    · cases h
    · exact (Except.ok.inj h).symm
  · cases h

/-- The place of a file in a directory is a name behind the place of the directory. -/
theorem locate_join {fs : FileSystem} {directory name : String} {a : List String}
    (hn : FilePath.Plain name) (hempty : name.isEmpty = false) (hdot : name ≠ ".") (hup : name ≠ "..")
    (h : fs.locate (FilePath.join directory name) = .ok a) :
    ∃ b, (FilePath.pieces directory).foldlM fs.descend (fs.origin directory) = .ok b ∧ a = b ++ [name] := by
  obtain ⟨-, -, hfold, -⟩ := locate_eq_ok.1 h
  have horigin : fs.origin (FilePath.join directory name) = fs.origin directory := by
    rw [origin, FilePath.isAbsolute_join (FilePath.isAbsolute_of_plain hn), origin]
  rw [horigin, FilePath.pieces_join (FilePath.isAbsolute_of_plain hn), FilePath.pieces_of_plain hn hempty,
    List.foldlM_append] at hfold
  obtain ⟨b, hd, hfold⟩ := except_bind_eq_ok.1 hfold
  rw [List.foldlM_cons] at hfold
  obtain ⟨c, hname, hfold⟩ := except_bind_eq_ok.1 hfold
  obtain rfl : c = a := Except.ok.inj hfold
  exact ⟨b, hd, descend_name hdot hup hname⟩

end FileSystem

end Tabulate
