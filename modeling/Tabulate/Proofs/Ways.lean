import Tabulate.Proofs.Preparations
import Tabulate.Proofs.Spellings

/-! The way of a path: the directories that its pieces are looked for in. A directory can be made, with those that it
lies in, if nothing but directories is on the way, and what is made lies there. -/
namespace Tabulate

namespace FilePath

def passed (a : List String) : List Part → List (List String)
  | [] => [a]
  | p :: ps => a :: passed (p.further a) ps

section Passed
variable {a b : List String} {front ps : List Part} {x : Part} {path parent : String}

theorem mem_passed_self (a : List String) (ps : List Part) : a ∈ passed a ps := by
  cases ps <;> exact List.mem_cons_self

theorem passed_concat (a : List String) (ps : List Part) (x : Part) :
    passed a (ps ++ [x]) = passed a ps ++ [(ps ++ [x]).foldl Part.further a] := by
  induction ps generalizing a with
  | nil => rfl
  | cons p ps ih =>
    rw [List.cons_append, passed, ih]
    rfl

theorem foldl_mem_passed (a : List String) (ps : List Part) : ps.foldl Part.further a ∈ passed a ps := by
  induction ps generalizing a with
  | nil => exact List.mem_cons_self
  | cons p ps ih => exact List.mem_cons_of_mem a (ih _)

/-- The last piece is looked for in what the parts before it lead over. -/
theorem mem_visited_concat (a : List String) (texts : List String) (t : String) :
    b ∈ visited a (texts ++ [t]) ↔ b ∈ passed a (texts.filterMap partOf?) := by
  induction texts generalizing a with
  | nil => rfl
  | cons piece texts ih =>
    rw [List.cons_append, visited, List.mem_cons, ih, settle_eq_further, List.filterMap_cons]
    cases hpiece : partOf? piece with
    | none =>
      -- a dot leads nowhere else
      have hself : b = a → b ∈ passed a (texts.filterMap partOf?) := fun h => h ▸ mem_passed_self a _
      simpa using hself
    | some p => rw [passed, List.mem_cons]; rfl

theorem foldl_settle_mem_visited (a : List String) (texts : List String) (t : String) :
    texts.foldl settle a ∈ visited a (texts ++ [t]) := by
  rw [mem_visited_concat, foldl_settle_eq]
  exact foldl_mem_passed a _

/-- Without steps up a path leads to its names, one below the other. -/
theorem foldl_settle_of_no_up {texts : List String} (h : ∀ t ∈ texts, t ≠ "..") (a : List String) :
    texts.foldl settle a = a ++ texts.filter (· ≠ ".") := by
  induction texts generalizing a with
  | nil => simp
  | cons t texts ih =>
    obtain ⟨ht, hrest⟩ := List.forall_mem_cons.1 h
    rw [List.foldl_cons, ih hrest, settle, if_neg ht]
    by_cases hdot : t = "." <;> simp [hdot]

theorem length_le_of_mem_visited {texts : List String} {t : String} (h : ∀ t ∈ texts, t ≠ "..")
    (hb : b ∈ visited a (texts ++ [t])) : b.length ≤ (texts.foldl settle a).length := by
  induction texts generalizing a with
  | nil => rw [List.mem_singleton.1 hb]; exact Nat.le_refl _
  | cons piece texts ih =>
    rcases List.mem_cons.1 hb with rfl | hb
    · rw [foldl_settle_of_no_up h, List.length_append]
      exact Nat.le_add_right _ _
    · exact ih (fun t ht => h t (List.mem_cons_of_mem piece ht)) hb

/-- The characters of a path are those of its pieces, and slashes. -/
theorem mem_path_iff {c : Char} (hc : c ≠ '/') (path : String) :
    c ∈ path.toList ↔ ∃ piece ∈ pieces path, c ∈ piece.toList := by
  have hsplit : c ∈ path.toList ↔ ∃ text ∈ path.toList.splitOn '/', c ∈ text := by
    generalize path.toList = cs
    induction cs with
    | nil => simp [List.splitOn_nil]
    | cons d cs ih =>
      rw [List.splitOn_cons_eq_if_modifyHead, List.mem_cons, ih]
      split
      · next hd =>
        have hne : c ≠ d := fun h => hc (by simpa [h] using hd)
        simp [hne]
      · obtain ⟨first, others, hcs⟩ := List.exists_cons_of_ne_nil (List.splitOn_ne_nil '/' cs)
        simp [hcs, or_assoc]
  rw [hsplit]
  constructor
  · rintro ⟨text, htext, hmem⟩
    have hne : text.isEmpty = false := List.isEmpty_eq_false_iff.2 (List.ne_nil_of_mem hmem)
    exact ⟨String.ofList text, List.mem_map_of_mem (List.mem_filter.2 ⟨htext, by simp [hne]⟩), by simpa using hmem⟩
  · rintro ⟨piece, hpiece, hmem⟩
    obtain ⟨text, htext, rfl⟩ := List.mem_map.1 hpiece
    exact ⟨text, (List.mem_filter.1 htext).1, by simpa using hmem⟩

/-- A path has no more pieces than characters. -/
theorem length_pieces_le (path : String) : (pieces path).length ≤ path.length := by
  rw [pieces, List.length_map, ← String.length_toList]
  generalize path.toList = cs
  induction cs with
  | nil => simp [List.splitOn_nil]
  | cons c cs ih =>
    rw [List.splitOn_cons_eq_if_modifyHead, List.length_cons]
    split
    · rw [List.filter_cons_of_neg (by simp)]
      exact Nat.le_succ_of_le ih
    · obtain ⟨first, others, hcs⟩ := List.exists_cons_of_ne_nil (List.splitOn_ne_nil '/' cs)
      rw [hcs] at ih ⊢
      have hothers : (others.filter fun p => !p.isEmpty).length ≤
          ((first :: others).filter fun p => !p.isEmpty).length :=
        ((List.sublist_cons_self first others).filter _).length_le
      rw [List.modifyHead_cons, List.filter_cons_of_pos (by simp), List.length_cons]
      omega

theorem steps_ofParts (hfront : IsFront front) (h : ∀ p ∈ ps, p.IsStep) :
    (pieces (ofParts (front ++ ps))).filterMap partOf? = ps := by
  rw [pieces_ofParts hfront h, List.filterMap_append, filterMap_partOf?_text h]
  split <;> rfl

theorem ofParts_ne_empty (hfront : IsFront front) (h : ∀ p ∈ ps ++ [x], p.IsStep) :
    (ofParts (front ++ (ps ++ [x]))).isEmpty = false := by
  have hsteps := steps_ofParts hfront h
  rw [Bool.eq_false_iff]
  intro hempty
  rw [String.isEmpty_iff.1 hempty] at hsteps
  simp [pieces] at hsteps

theorem parent?_eq (hx : x ≠ .root) (h : parts path = front ++ (ps ++ [x])) :
    parent? path = some (ofParts (front ++ ps)) := by
  have hlast : parts path = (front ++ ps) ++ [x] := by rw [h, List.append_assoc]
  have hdrop : (parts path).dropLast = front ++ ps := by rw [hlast, List.dropLast_concat]
  rw [parent?]
  split
  · next hnil => simp [hnil] at hlast
  · next hroot =>
    have hend := congrArg List.getLast? (hroot.symm.trans hlast)
    simp only [List.getLast?_singleton, List.getLast?_concat, Option.some.injEq] at hend
    exact absurd hend.symm hx
  · rw [hdrop]

theorem steps_left (h : ∀ p ∈ ps ++ [x], p.IsStep) : ∀ p ∈ ps, p.IsStep := (List.forall_mem_append.1 h).1

/-- A path that ends in a step lies in the one without it. -/
theorem parent?_ofParts (hfront : IsFront front) (h : ∀ p ∈ ps ++ [x], p.IsStep) :
    parent? (ofParts (front ++ (ps ++ [x]))) = some (ofParts (front ++ ps)) := by
  refine parent?_eq ?_ (parts_ofParts hfront h)
  rintro rfl
  exact h .root (by simp)

end Passed
end FilePath

namespace FileSystem
open Effects FilePath

def way (fs : FileSystem) (path : String) : List (List String) := visited (fs.origin path) (pieces path)

def Free (fs : FileSystem) (a : List String) : Prop := fs.at? a = none ∨ fs.at? a = some .directory

variable {fs fs' made : FileSystem} {a b : List String} {path parent : String} {front ps : List Part} {x : Part}

theorem MakesDirectories.free (h : MakesDirectories fs fs') (hb : fs.Free b) : fs'.Free b := by
  rcases h.made b with hsame | ⟨-, hdir⟩
  · rwa [Free, hsame]
  · exact .inr hdir

theorem MakesDirectories.origin (h : MakesDirectories fs fs') (path : String) : fs'.origin path = fs.origin path := by
  rw [FileSystem.origin, h.workingDirectory, FileSystem.origin]

theorem directory_of_mem_way (hl : fs.locate path = .ok a) : ∀ b ∈ fs.way path, fs.at? b = some .directory :=
  (foldlM_descend_eq_ok.1 (locate_eq_ok.1 hl).2.2.1).1

theorem isDirectory_of_locate (hl : fs.locate path = .ok a) (ha : fs.at? a = some .directory) :
    fs.isDirectory path = true := by
  have hentry : fs.entry path = .ok .directory := by
    rw [entry, hl]
    simp [bind, Except.bind, ha]
    rfl
  rw [isDirectory, hentry]

/-! ### What one directory takes -/

theorem makeDirectory_of_none (hl : fs.locate path = .ok a) (ha : fs.at? a = none) :
    fs.makeDirectory path = .ok (fs.set a .directory) := by
  rw [makeDirectory, hl]
  simp [bind, Except.bind, ha]
  rfl

theorem makeDirectory_of_directory (hl : fs.locate path = .ok a) (ha : fs.at? a = some .directory) :
    fs.makeDirectory path = .error .exists := by
  rw [makeDirectory, hl]
  simp [bind, Except.bind, ha]
  rfl

theorem makeDirectory_of_error {fault : IoFault} (hl : fs.locate path = .error fault) :
    fs.makeDirectory path = .error fault := by
  rw [makeDirectory, hl]
  rfl

/-- A directory is made where its path settles, and nowhere else. -/
theorem at?_makeDirectory (h : fs.makeDirectory path = .ok made) (b : List String) :
    made.at? b = fs.at? b ∨ b = fs.settled path := by
  obtain ⟨a, hl, hmade⟩ := except_bind_eq_ok.1 h
  cases ha : fs.at? a with
  | some e =>
    rw [ha] at hmade
    cases hmade
  | none =>
    rw [ha] at hmade
    cases hmade
    have hne : a ≠ [] := ne_nil_of_at? fun h => nomatch ha.symm.trans h
    rw [at?_set fs hne, ← eq_settled hl]
    by_cases hb : b = a
    · exact .inr hb
    · exact .inl (if_neg hb)

/-- Where nothing but directories can be, a piece that is not found has none to be looked for in. -/
theorem foldlM_descend_error {pieces : List String} {fault : IoFault} (hfree : ∀ b ∈ visited a pieces, fs.Free b)
    (hshort : ∀ p ∈ pieces, p.utf8ByteSize ≤ 255) (h : pieces.foldlM fs.descend a = .error fault) :
    fault = .notFound := by
  induction pieces generalizing a with
  | nil => cases h
  | cons piece pieces ih =>
    obtain ⟨hfirst, hrest⟩ := List.forall_mem_cons.1 hfree
    obtain ⟨hpiece, hpieces⟩ := List.forall_mem_cons.1 hshort
    rw [List.foldlM_cons] at h
    rcases hfirst with hnone | hdir
    · rw [descend, hnone] at h
      exact (Except.error.inj h).symm
    · rw [descend_eq_ok.2 ⟨hdir, hpiece, rfl⟩] at h
      exact ih hrest hpieces h

structure Passable (fs : FileSystem) (path : String) : Prop where
  nul : path.toList.contains (Char.ofNat 0) = false
  short : ∀ p ∈ pieces path, p.utf8ByteSize ≤ 255
  begins : fs.at? (fs.origin path) = some .directory
  free : ∀ b ∈ fs.way path, fs.Free b

theorem Passable.mono (h : fs.Passable path) (hmade : MakesDirectories fs made) : made.Passable path where
  nul := h.nul
  short := h.short
  begins := by rw [hmade.origin, hmade.at?_eq h.begins]
  free b hb := by
    rw [way, hmade.origin] at hb
    exact hmade.free (h.free b hb)

/-- What has no other pieces, and dots, is no longer in the way. -/
theorem Passable.of_pieces (h : fs.Passable path) (hpieces : ∀ p ∈ pieces parent, p = "." ∨ p ∈ pieces path)
    (horigin : fs.origin parent = fs.origin path) (hfree : ∀ b ∈ fs.way parent, fs.Free b) : fs.Passable parent where
  nul := by
    have hslash : Char.ofNat 0 ≠ '/' := by decide
    have hnul := h.nul
    rw [List.contains_eq_mem, decide_eq_false_iff_not] at hnul ⊢
    rw [mem_path_iff hslash] at hnul ⊢
    rintro ⟨piece, hpiece, hmem⟩
    rcases hpieces piece hpiece with rfl | hpath
    · exact absurd hmem (by decide)
    · exact hnul ⟨piece, hpath, hmem⟩
  short p hp := by
    rcases hpieces p hp with rfl | hpath
    · decide
    · exact h.short p hpath
  begins := horigin ▸ h.begins
  free := hfree

section Passable
variable (h : fs.Passable path) (hempty : path.isEmpty = false)
include h hempty

theorem Passable.locate_eq_ok (hend : endsInSlash path → fs.Free (fs.settled path))
    (hway : ∀ b ∈ fs.way path, fs.at? b = some .directory) : fs.locate path = .ok (fs.settled path) :=
  FileSystem.locate_eq_ok.2 ⟨h.nul, hempty, foldlM_descend_eq_ok.2 ⟨hway, h.short, rfl⟩, hend⟩

theorem Passable.locate_eq_notFound (hway : ¬∀ b ∈ fs.way path, fs.at? b = some .directory) :
    fs.locate path = .error .notFound := by
  cases hfold : (pieces path).foldlM fs.descend (fs.origin path) with
  | ok b => exact absurd (foldlM_descend_eq_ok.1 hfold).1 hway
  | error fault =>
    obtain rfl := foldlM_descend_error h.free h.short hfold
    have hnul := h.nul
    rw [origin] at hfold
    rw [locate, hnul, hempty]
    simp only [Bool.false_eq_true, if_false]
    rw [hfold]
    rfl

end Passable

/-! ### A directory and those it lies in -/

theorem settled_ofParts (hfront : IsFront front) (h : ∀ p ∈ ps, p.IsStep) :
    fs.settled (ofParts (front ++ ps)) = ps.foldl Part.further (fs.origin (ofParts (front ++ ps))) := by
  rw [settled, foldl_settle_eq, steps_ofParts hfront h]

theorem origin_ofParts (hfront : IsFront front) (h : ∀ p ∈ ps, p.IsStep) :
    fs.origin (ofParts (front ++ ps)) = if .root ∈ front then [] else fs.workingDirectory := by
  have hroot := root_mem_parts_iff (ofParts (front ++ ps))
  rw [parts_ofParts hfront h, List.mem_append, or_iff_left fun hp => h .root hp] at hroot
  simp only [origin, ← hroot]

theorem origin_concat (hfront : IsFront front) (h : ∀ p ∈ ps ++ [x], p.IsStep) :
    fs.origin (ofParts (front ++ (ps ++ [x]))) = fs.origin (ofParts (front ++ ps)) := by
  rw [origin_ofParts hfront h, origin_ofParts hfront (steps_left h)]

theorem passed_left (hfront : IsFront front) (h : ∀ p ∈ ps ++ [x], p.IsStep)
    (hb : b ∈ passed (fs.origin (ofParts (front ++ ps))) ps) :
    b ∈ passed (fs.origin (ofParts (front ++ (ps ++ [x])))) (ps ++ [x]) := by
  rw [origin_concat hfront h, passed_concat]
  exact List.mem_append_left _ hb

theorem mem_way_ofParts (hfront : IsFront front) (h : ∀ p ∈ ps ++ [x], p.IsStep) :
    b ∈ fs.way (ofParts (front ++ (ps ++ [x]))) ↔ b ∈ passed (fs.origin (ofParts (front ++ ps))) ps := by
  have hdots : (if front = [Part.here] then ["."] else []).filterMap partOf? = [] := by split <;> rfl
  rw [way, origin_concat hfront h, pieces_ofParts hfront h, List.map_append, List.map_singleton, ← List.append_assoc,
    mem_visited_concat, List.filterMap_append, hdots, filterMap_partOf?_text (steps_left h)]
  rfl

/-- The directory that a path lies in is written from fewer parts. -/
theorem exists_parent (hfront : IsFront front) (h : ∀ p ∈ ps, p.IsStep)
    (hparent : parent? (ofParts (front ++ ps)) = some parent) :
    ∃ front' ps', IsFront front' ∧ (∀ p ∈ ps', p.IsStep) ∧ parent = ofParts (front' ++ ps') ∧
      ∀ (fs : FileSystem) b, b ∈ passed (fs.origin parent) ps' → b ∈ passed (fs.origin (ofParts (front ++ ps))) ps := by
  have hparts := parts_ofParts hfront h
  cases ps using List.reverseRecOn with
  | nil =>
    rw [List.append_nil] at hparent hparts ⊢
    rw [parent?, hparts] at hparent
    rcases hfront with rfl | rfl | rfl
    · cases hparent
    · cases hparent
    · cases hparent
      exact ⟨[], [], .inl rfl, nofun, rfl, fun _ _ hb => hb⟩
  | append_singleton ps x =>
    rw [parent?_ofParts hfront h] at hparent
    obtain rfl := Option.some.inj hparent
    exact ⟨front, ps, hfront, steps_left h, rfl, fun fs b hb => passed_left hfront h hb⟩

theorem at?_makeDirectory_ofParts (hfront : IsFront front) (h : ∀ p ∈ ps, p.IsStep)
    (hmade : fs.makeDirectory (ofParts (front ++ ps)) = .ok made) (b : List String) :
    made.at? b = fs.at? b ∨ b ∈ passed (fs.origin (ofParts (front ++ ps))) ps := by
  refine (at?_makeDirectory hmade b).imp_right fun hb => ?_
  rw [hb, settled_ofParts hfront h]
  exact foldl_mem_passed _ ps

/-- Making a directory, with those it lies in, changes nothing but what its parts lead over. -/
theorem at?_makeDirectories_go (fuel : Nat) (hfront : IsFront front) (h : ∀ p ∈ ps, p.IsStep) (b : List String) :
    (makeDirectories.go fuel fs (ofParts (front ++ ps))).1.at? b = fs.at? b ∨
      b ∈ passed (fs.origin (ofParts (front ++ ps))) ps := by
  induction fuel generalizing fs front ps with
  | zero => exact .inl rfl
  | succ fuel ih =>
    rw [makeDirectories.go]
    split
    · exact .inl rfl
    · split
      · next made hmade => exact at?_makeDirectory_ofParts hfront h hmade b
      · split
        · exact .inl rfl
        · next parent hparent =>
          obtain ⟨front', ps', hfront', hps', rfl, hmore⟩ := exists_parent hfront h hparent
          have hmakes := makeDirectories_go_makes fuel fs (ofParts (front' ++ ps'))
          have hinner : (makeDirectories.go fuel fs (ofParts (front' ++ ps'))).1.at? b = fs.at? b ∨
              b ∈ passed (fs.origin (ofParts (front ++ ps))) ps := (ih hfront' hps').imp_right (hmore fs b)
          split
          · next fs₁ fault hgo => rwa [hgo] at hinner
          · next fs₁ hgo =>
            rw [hgo] at hinner hmakes
            split
            · next made hmade =>
              have hlast := at?_makeDirectory_ofParts hfront h hmade b
              rw [hmakes.origin] at hlast
              rcases hlast with hsame | hpassed
              · rwa [hsame]
              · exact .inr hpassed
            · exact hinner
      · exact .inl rfl

theorem mem_passed_of_mem_way (hfront : IsFront front) (h : ∀ p ∈ ps, p.IsStep)
    (hb : b ∈ fs.way (ofParts (front ++ ps))) : b ∈ passed (fs.origin (ofParts (front ++ ps))) ps := by
  cases ps using List.reverseRecOn with
  | nil =>
    rw [List.append_nil] at hb ⊢
    rcases hfront with rfl | rfl | rfl
    · cases hb
    · cases hb
    · exact hb
  | append_singleton ps x => exact passed_left hfront h ((mem_way_ofParts hfront h).1 hb)

theorem Passable.of_concat (hfront : IsFront front) (h : ∀ p ∈ ps ++ [x], p.IsStep)
    (hpass : fs.Passable (ofParts (front ++ (ps ++ [x])))) :
    fs.Passable (ofParts (front ++ ps)) ∧ fs.Free (fs.settled (ofParts (front ++ ps))) := by
  have hps := steps_left h
  have hfree : ∀ b ∈ passed (fs.origin (ofParts (front ++ ps))) ps, fs.Free b :=
    fun b hb => hpass.free b ((mem_way_ofParts hfront h).2 hb)
  have hpieces : ∀ p ∈ pieces (ofParts (front ++ ps)), p = "." ∨ p ∈ pieces (ofParts (front ++ (ps ++ [x]))) := by
    intro p hp
    rw [pieces_ofParts hfront hps] at hp
    rw [pieces_ofParts hfront h, List.map_append, ← List.append_assoc]
    exact .inr (List.mem_append_left _ hp)
  refine ⟨hpass.of_pieces hpieces (origin_concat hfront h).symm fun b hb => ?_, ?_⟩
  · exact hfree b (mem_passed_of_mem_way hfront hps hb)
  · rw [settled_ofParts hfront hps]
    exact hfree _ (foldl_mem_passed _ ps)

/-- The last directory of a path is made or there, where those it lies in are. -/
theorem makeDirectory_last (hfront : IsFront front) (h : ∀ p ∈ ps ++ [x], p.IsStep)
    (hpass : fs.Passable (ofParts (front ++ (ps ++ [x]))))
    (hend : fs.Free (fs.settled (ofParts (front ++ (ps ++ [x])))))
    (hdirs : ∀ b ∈ passed (fs.origin (ofParts (front ++ ps))) ps, fs.at? b = some .directory) :
    ∃ made, MakesDirectories fs made ∧ made.at? (fs.settled (ofParts (front ++ (ps ++ [x])))) = some .directory ∧
      (fs.makeDirectory (ofParts (front ++ (ps ++ [x]))) = .ok made ∨
        fs.makeDirectory (ofParts (front ++ (ps ++ [x]))) = .error .exists ∧
          fs.isDirectory (ofParts (front ++ (ps ++ [x]))) = true ∧ made = fs) := by
  have hway : ∀ b ∈ fs.way (ofParts (front ++ (ps ++ [x]))), fs.at? b = some .directory :=
    fun b hb => hdirs b ((mem_way_ofParts hfront h).1 hb)
  have hlocate := hpass.locate_eq_ok (ofParts_ne_empty hfront h) (fun _ => hend) hway
  rcases hend with hnone | hdir
  · have hne := ne_nil_of_at? fun h => nomatch hnone.symm.trans h
    have hmade := makeDirectory_of_none hlocate hnone
    exact ⟨_, makeDirectory_makes hmade, by rw [at?_set fs hne, if_pos rfl], .inl hmade⟩
  · exact ⟨fs, .refl fs, hdir, .inr ⟨makeDirectory_of_directory hlocate hdir, isDirectory_of_locate hlocate hdir, rfl⟩⟩

/-- Where nothing but directories is on the way, all that are missing are made. -/
theorem makeDirectories_go_succeeds {fuel : Nat} (hfuel : ps.length < fuel) (hfront : IsFront front)
    (h : ∀ p ∈ ps, p.IsStep) (hpass : fs.Passable (ofParts (front ++ ps)))
    (hend : fs.Free (fs.settled (ofParts (front ++ ps)))) :
    ∃ made, makeDirectories.go fuel fs (ofParts (front ++ ps)) = (made, .ok ()) ∧
      ∀ b ∈ passed (fs.origin (ofParts (front ++ ps))) ps, made.at? b = some .directory := by
  induction ps using List.reverseRecOn generalizing fuel with
  | nil =>
    obtain ⟨fuel, rfl⟩ := Nat.exists_eq_add_of_lt hfuel
    have hone {b} (hb : b ∈ passed (fs.origin (ofParts (front ++ []))) []) : fs.at? b = some .directory := by
      rw [List.mem_singleton.1 hb]
      exact hpass.begins
    refine ⟨fs, ?_, fun b hb => hone hb⟩
    by_cases hempty : (ofParts (front ++ [])).isEmpty = true
    · rw [makeDirectories.go, if_pos hempty]
    · have hlocate := hpass.locate_eq_ok (Bool.eq_false_iff.2 hempty) (fun _ => hend)
        fun b hb => hone (mem_passed_of_mem_way hfront h hb)
      have hdir : fs.at? (fs.settled (ofParts (front ++ []))) = some .directory := by
        rw [settled_ofParts hfront h]
        exact hpass.begins
      rw [makeDirectories.go, if_neg hempty, makeDirectory_of_directory hlocate hdir]
      dsimp only
      rw [if_pos (isDirectory_of_locate hlocate hdir)]
  | append_singleton ps x ih =>
    have hempty := ofParts_ne_empty hfront h
    have horigin : fs.origin (ofParts (front ++ (ps ++ [x]))) = fs.origin (ofParts (front ++ ps)) :=
      origin_concat hfront h
    obtain ⟨fuel, rfl⟩ := Nat.exists_eq_add_of_lt hfuel
    rw [makeDirectories.go, hempty, if_neg Bool.false_ne_true, horigin, passed_concat, ← horigin,
      ← settled_ofParts hfront h, horigin]
    by_cases hdirs : ∀ b ∈ passed (fs.origin (ofParts (front ++ ps))) ps, fs.at? b = some .directory
    · obtain ⟨made, hkeeps, hplace, hmake⟩ := makeDirectory_last hfront h hpass hend hdirs
      refine ⟨made, ?_, List.forall_mem_append.2 ⟨fun b hb => hkeeps.at?_eq (hdirs b hb), by simpa using hplace⟩⟩
      rcases hmake with hmade | ⟨hexists, hdir, rfl⟩
      · rw [hmade]
      · rw [hexists]
        dsimp only
        rw [if_pos hdir]
    · -- the directory that it lies in is made first
      have hway : ¬∀ b ∈ fs.way (ofParts (front ++ (ps ++ [x]))), fs.at? b = some .directory :=
        fun hall => hdirs fun b hb => hall b ((mem_way_ofParts hfront h).2 hb)
      have hfuel' : ps.length < (ps ++ [x]).length + fuel := by
        rw [List.length_append, List.length_singleton]
        omega
      obtain ⟨hpass', hend'⟩ := hpass.of_concat hfront h
      obtain ⟨before, hgo, hbefore⟩ := ih hfuel' (steps_left h) hpass' hend'
      have hmakes := makeDirectories_go_makes ((ps ++ [x]).length + fuel) fs (ofParts (front ++ ps))
      rw [hgo] at hmakes
      have hsettled : before.settled (ofParts (front ++ (ps ++ [x]))) =
          fs.settled (ofParts (front ++ (ps ++ [x]))) := by
        rw [settled, hmakes.origin, settled]
      obtain ⟨made, hkeeps, hplace, hmake⟩ := makeDirectory_last hfront h (hpass.mono hmakes)
        (hsettled ▸ hmakes.free hend) (by rwa [hmakes.origin])
      rw [hsettled] at hplace
      refine ⟨made, ?_, List.forall_mem_append.2 ⟨fun b hb => hkeeps.at?_eq (hbefore b hb), by simpa using hplace⟩⟩
      rw [makeDirectory_of_error (hpass.locate_eq_notFound hempty hway), parent?_ofParts hfront h]
      dsimp only
      rw [hgo]
      dsimp only
      rcases hmake with hmade | ⟨hexists, hdir, rfl⟩
      · rw [hmade]
      · rw [hexists]
        dsimp only
        rw [if_pos hdir]

/-! ### The directory of a file -/

section File
variable {texts : List String} {name : String} (hpieces : pieces path = texts ++ [name]) (hname : IsName name)
include hpieces hname

/-- A path that ends in a name lies in the directory that is written from the parts before it. -/
theorem exists_parent_file : ∃ front ps, IsFront front ∧ (∀ p ∈ ps, p.IsStep ∧ p.text ∈ pieces path) ∧
    parent? path = some (ofParts (front ++ ps)) ∧
    ∀ fs : FileSystem, fs.origin (ofParts (front ++ ps)) = fs.origin path ∧
      ∀ b, b ∈ fs.way path ↔ b ∈ passed (fs.origin path) ps := by
  have hlast : [name].filterMap partOf? = [.name name] := by
    simp [partOf?, hname.2.2.1, hname.2.2.2]
  obtain ⟨front, hfront, hroot, hparts⟩ := exists_front path
  rw [hpieces, List.filterMap_append, hlast] at hparts
  have hps : ∀ p ∈ texts.filterMap partOf?, p.IsStep ∧ p.text ∈ pieces path := by
    intro p hp
    refine isStep_of_mem_pieces ?_
    rw [hpieces, List.filterMap_append]
    exact List.mem_append_left _ hp
  have hfile : Part.name name ≠ .root := by simp
  refine ⟨front, texts.filterMap partOf?, hfront, hps, parent?_eq hfile hparts, fun fs => ⟨?_, fun b => ?_⟩⟩
  · rw [origin_ofParts hfront fun p hp => (hps p hp).1]
    simp only [hroot, origin]
  · rw [way, hpieces, mem_visited_concat]

/-- Making the directory of a file changes nothing but what is on the way to it. -/
theorem at?_makeDirectories_file (hparent : parent? path = some parent) (b : List String) :
    (fs.makeDirectories parent).1.at? b = fs.at? b ∨ b ∈ fs.way path := by
  obtain ⟨front, ps, hfront, hps, hwritten, hsame⟩ := exists_parent_file hpieces hname
  obtain rfl : ofParts (front ++ ps) = parent := Option.some.inj (hwritten.symm.trans hparent)
  refine (at?_makeDirectories_go _ hfront (fun p hp => (hps p hp).1) b).imp_right fun hb => ?_
  rw [(hsame fs).1] at hb
  exact ((hsame fs).2 b).2 hb

/-- Where nothing but directories is on the way to a file, all of them are there when its directory has been made. -/
theorem makeDirectories_file_succeeds (hparent : parent? path = some parent) (hpass : fs.Passable path) :
    ∃ made, fs.makeDirectories parent = (made, .ok ()) ∧ ∀ b ∈ fs.way path, made.at? b = some .directory := by
  obtain ⟨front, ps, hfront, hps, hwritten, hsame⟩ := exists_parent_file hpieces hname
  obtain rfl : ofParts (front ++ ps) = parent := Option.some.inj (hwritten.symm.trans hparent)
  obtain ⟨horigin, hway⟩ := hsame fs
  have hsteps : ∀ p ∈ ps, p.IsStep := fun p hp => (hps p hp).1
  have hfree : ∀ b ∈ passed (fs.origin (ofParts (front ++ ps))) ps, fs.Free b := by
    rw [horigin]
    exact fun b hb => hpass.free b ((hway b).2 hb)
  have hwritten : pieces (ofParts (front ++ ps)) = (if front = [.here] then ["."] else []) ++ ps.map Part.text :=
    pieces_ofParts hfront hsteps
  have hshorter : ∀ p ∈ pieces (ofParts (front ++ ps)), p = "." ∨ p ∈ pieces path := by
    intro p hp
    rw [hwritten] at hp
    rcases List.mem_append.1 hp with hp | hp
    · split at hp
      · exact .inl (List.mem_singleton.1 hp)
      · cases hp
    · obtain ⟨q, hq, rfl⟩ := List.mem_map.1 hp
      exact .inr (hps q hq).2
  have hfuel : ps.length < (ofParts (front ++ ps)).length + 1 := by
    have hlength := length_pieces_le (ofParts (front ++ ps))
    rw [hwritten, List.length_append, List.length_map] at hlength
    omega
  obtain ⟨made, hgo, hmade⟩ := makeDirectories_go_succeeds hfuel hfront hsteps
    (hpass.of_pieces hshorter horigin fun b hb => hfree b (mem_passed_of_mem_way hfront hsteps hb))
    (settled_ofParts hfront hsteps ▸ hfree _ (foldl_mem_passed _ ps))
  refine ⟨made, hgo, fun b hb => hmade b ?_⟩
  rw [horigin]
  exact (hway b).1 hb

end File
end FileSystem
end Tabulate
