import Tabulate.Proofs.Files

/-! Where paths settle. A path that leads somewhere leads to where its pieces lead one after the other, whatever
the entries are: a dot stays, two dots go up and a name goes down. -/
namespace Tabulate

def settle (a : List String) (piece : String) : List String :=
  if piece = "." then a else if piece = ".." then a.dropLast else a ++ [piece]

def visited (a : List String) : List String → List (List String)
  | [] => []
  | piece :: pieces => a :: visited (settle a piece) pieces

namespace FileSystem

open Effects

def settled (fs : FileSystem) (path : String) : List String := (FilePath.pieces path).foldl settle (fs.origin path)

variable {fs : FileSystem} {a b : List String} {path : String}

theorem descend_eq_ok {piece : String} : fs.descend a piece = .ok b ↔
    fs.at? a = some .directory ∧ piece.utf8ByteSize ≤ 255 ∧ settle a piece = b := by
  have hdot : (".").utf8ByteSize ≤ 255 := by decide
  have hup : ("..").utf8ByteSize ≤ 255 := by decide
  cases ha : fs.at? a with
  | none => simp [descend, ha]
  | some e =>
    cases e with
    | file bytes => simp [descend, ha]
    | database content => simp [descend, ha]
    | directory =>
      by_cases hone : piece = "."
      · simp [descend, settle, ha, hone, hdot]
      · by_cases htwo : piece = ".."
        · simp [descend, settle, ha, htwo, hup]
        · by_cases hshort : piece.utf8ByteSize ≤ 255
          · simp [descend, settle, ha, hone, htwo, hshort, Nat.not_lt.2 hshort]
          · simp [descend, ha, hone, htwo, hshort, Nat.lt_of_not_le hshort]

theorem foldlM_descend_eq_ok {pieces : List String} : pieces.foldlM fs.descend a = .ok b ↔
    (∀ d ∈ visited a pieces, fs.at? d = some .directory) ∧ (∀ p ∈ pieces, p.utf8ByteSize ≤ 255) ∧
      pieces.foldl settle a = b := by
  induction pieces generalizing a with
  | nil => simp [visited, pure, Except.pure]
  | cons piece pieces ih =>
    rw [List.foldlM_cons, except_bind_eq_ok, List.foldl_cons, visited, List.forall_mem_cons, List.forall_mem_cons]
    constructor
    · rintro ⟨c, hc, hrest⟩
      obtain ⟨hdir, hshort, rfl⟩ := descend_eq_ok.1 hc
      obtain ⟨hdirs, hshorts, hb⟩ := ih.1 hrest
      exact ⟨⟨hdir, hdirs⟩, ⟨hshort, hshorts⟩, hb⟩
    · rintro ⟨⟨hdir, hdirs⟩, ⟨hshort, hshorts⟩, hb⟩
      exact ⟨_, descend_eq_ok.2 ⟨hdir, hshort, rfl⟩, ih.2 ⟨hdirs, hshorts, hb⟩⟩

theorem eq_settled (h : fs.locate path = .ok a) : a = fs.settled path :=
  (foldlM_descend_eq_ok.1 (locate_eq_ok.1 h).2.2.1).2.2.symm

/-- A path whose pieces are looked for in directories only leads to where it settles. -/
theorem locate_of_visited (hnul : path.toList.contains (Char.ofNat 0) = false) (hempty : path.isEmpty = false)
    (hslash : ¬endsInSlash path) (hshort : ∀ p ∈ FilePath.pieces path, p.utf8ByteSize ≤ 255)
    (hdirs : ∀ d ∈ visited (fs.origin path) (FilePath.pieces path), fs.at? d = some .directory) :
    fs.locate path = .ok (fs.settled path) :=
  locate_eq_ok.2 ⟨hnul, hempty, foldlM_descend_eq_ok.2 ⟨hdirs, hshort, rfl⟩, fun h => absurd h hslash⟩

def ofDirectories (directories : List (List String)) : FileSystem :=
  ⟨directories.map fun d => (d, .directory), [], none⟩

theorem at?_ofDirectories {directories : List (List String)} {d : List String} (hd : d ∈ directories) :
    (ofDirectories directories).at? d = some .directory := by
  have hlookup : (directories.map fun d => (d, Entry.directory)).lookup d = some .directory := by
    induction directories with
    | nil => cases hd
    | cons c directories ih =>
      rw [List.map_cons, List.lookup_cons]
      by_cases hdc : d = c
      · simp [hdc]
      · have hne : (d == c) = false := by simpa using hdc
        rw [hne]
        exact ih ((List.mem_cons.1 hd).resolve_left hdc)
  unfold at?
  split
  · rfl
  · exact hlookup

end FileSystem

end Tabulate
