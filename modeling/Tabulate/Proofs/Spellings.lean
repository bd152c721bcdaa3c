import Tabulate.Input.Basic
import Tabulate.Proofs.Identifiers
import Tabulate.Proofs.Settling

/-! Spellings of a path. The parts of a path tell where it leads, so two spellings with the same parts lead to the
same place. The other way round this holds of paths that are written with names only, and what is found below such a
path is written like it. -/
namespace Tabulate

namespace FilePath

def Part.further (a : List String) : Part → List String
  | .root => []
  | .here => a
  | .up => a.dropLast
  | .name s => a ++ [s]

def IsName (name : String) : Prop := name.isEmpty = false ∧ Plain name ∧ name ≠ "." ∧ name ≠ ".."

instance (name : String) : Decidable (IsName name) := inferInstanceAs (Decidable (_ ∧ _))

def along (absolute : Bool) (names : List String) : List Part :=
  (if absolute then [.root] else []) ++ names.map .name

/-- A path that is written with names only. -/
def Along (absolute : Bool) (path : String) : Prop := ∃ names, (∀ n ∈ names, IsName n) ∧ parts path = along absolute names

def Straight (path : String) : Prop := ∀ p ∈ parts path, p ≠ .here ∧ p ≠ .up

instance (path : String) : Decidable (Straight path) := inferInstanceAs (Decidable (∀ _ ∈ _, _))

section Parts
variable {path name : String} {names : List String} {absolute : Bool}

theorem settle_eq_further (a : List String) (piece : String) :
    settle a piece = ((partOf? piece).map (Part.further a)).getD a := by
  unfold settle partOf?
  split
  · rfl
  · split
    · rfl
    · rfl

theorem foldl_settle_eq (a : List String) (ps : List String) :
    ps.foldl settle a = (ps.filterMap partOf?).foldl Part.further a := by
  induction ps generalizing a with
  | nil => rfl
  | cons piece ps ih =>
    rw [List.foldl_cons, ih, settle_eq_further, List.filterMap_cons]
    cases partOf? piece <;> rfl

theorem foldl_further_names (a : List String) (names : List String) :
    (names.map Part.name).foldl Part.further a = a ++ names := by
  induction names generalizing a with
  | nil => exact (List.append_nil a).symm
  | cons n names ih =>
    rw [List.map_cons, List.foldl_cons, ih, Part.further, List.append_assoc]
    rfl

/-- No text between slashes holds one. -/
theorem slash_not_mem_of_mem_splitOn {cs text : List Char} (h : text ∈ cs.splitOn '/') : '/' ∉ text := by
  induction cs generalizing text with
  | nil =>
    rw [List.splitOn_nil, List.mem_singleton] at h
    rw [h]
    exact List.not_mem_nil
  | cons c cs ih =>
    rw [List.splitOn_cons_eq_if_modifyHead] at h
    split at h
    · rcases List.mem_cons.1 h with rfl | h
      · exact List.not_mem_nil
      · exact ih h
    · next hc =>
      obtain ⟨first, others, hsplit⟩ := List.exists_cons_of_ne_nil (List.splitOn_ne_nil '/' cs)
      rw [hsplit, List.modifyHead_cons] at h
      rcases List.mem_cons.1 h with rfl | h
      · have hfirst := ih (hsplit ▸ List.mem_cons_self)
        have hne : '/' ≠ c := fun h => hc (by simp [← h])
        simp [hfirst, hne]
      · exact ih (hsplit ▸ List.mem_cons_of_mem first h)

theorem plain_of_mem_pieces {piece : String} (h : piece ∈ pieces path) : Plain piece ∧ piece.isEmpty = false := by
  obtain ⟨cs, hcs, rfl⟩ := List.mem_map.1 h
  obtain ⟨hsplit, hne⟩ := List.mem_filter.1 hcs
  refine ⟨?_, by simpa using hne⟩
  rw [Plain, String.toList_ofList]
  exact slash_not_mem_of_mem_splitOn hsplit

theorem isName_of_mem_pieces {piece : String} (hp : piece ∈ pieces path) (hdot : piece ≠ ".") (hup : piece ≠ "..") :
    IsName piece := by
  obtain ⟨hplain, hempty⟩ := plain_of_mem_pieces hp
  exact ⟨hempty, hplain, hdot, hup⟩

theorem names_of_pieces {ps : List String} (hps : ∀ p ∈ ps, p ∈ pieces path)
    (hup : ∀ p ∈ ps.filterMap partOf?, p ≠ .up) :
    ∃ names : List String, (∀ n ∈ names, IsName n) ∧ ps.filterMap partOf? = names.map .name := by
  induction ps with
  | nil => exact ⟨[], nofun, rfl⟩
  | cons p ps ih =>
    have hrest : ∀ q ∈ ps.filterMap partOf?, q ≠ .up := by
      intro q hq
      refine hup q ?_
      rw [List.filterMap_cons]
      split
      · exact hq
      · exact List.mem_cons_of_mem _ hq
    obtain ⟨names, hnames, hparts⟩ := ih (fun q hq => hps q (List.mem_cons_of_mem p hq)) hrest
    by_cases hdot : p = "."
    · exact ⟨names, hnames, by rw [List.filterMap_cons, partOf?, if_pos hdot, hparts]⟩
    · by_cases htwo : p = ".."
      · exact absurd rfl (hup .up (by simp [htwo, partOf?]))
      · refine ⟨p :: names, ?_, ?_⟩
        · exact List.forall_mem_cons.2 ⟨isName_of_mem_pieces (hps p List.mem_cons_self) hdot htwo, hnames⟩
        · rw [List.filterMap_cons, partOf?, if_neg hdot, if_neg htwo, hparts]
          rfl

/-- Without dots and steps up there are only names. -/
theorem Straight.along (h : Straight path) : Along (isAbsolute path) path := by
  have hup : ∀ p ∈ (pieces path).filterMap partOf?, p ≠ .up := by
    intro p hp
    refine (h p ?_).2
    rw [parts]
    split
    · exact List.mem_cons_of_mem _ hp
    · split
      · exact List.mem_cons_of_mem _ hp
      · exact hp
  obtain ⟨names, hnames, hparts⟩ := names_of_pieces (fun _ hp => hp) hup
  refine ⟨names, hnames, ?_⟩
  have hhere := h .here
  rw [parts, hparts] at hhere ⊢
  rw [FilePath.along]
  split
  · rfl
  · next hrelative =>
    rw [if_neg hrelative] at hhere
    split
    · next hdot =>
      rw [if_pos hdot] at hhere
      exact absurd rfl (hhere List.mem_cons_self).1
    · rfl

/-! ### Paths that are put together -/

theorem IsName.toList_ne_nil (h : IsName name) : name.toList ≠ [] := by
  intro hnil
  have hempty := h.1
  rw [String.toList_eq_nil_iff.1 hnil] at hempty
  cases hempty

theorem inner_name (h : IsName name) : inner name.toList = [.name name] := by
  rw [inner_of_not_mem h.toList_ne_nil h.2.1, String.ofList_toList, partOf?, if_neg h.2.2.1, if_neg h.2.2.2]
  rfl

theorem parts_join (hne : path.isEmpty = false) (h : IsName name) :
    parts (join path name) = parts path ++ [.name name] := by
  rw [join, isAbsolute_of_plain h.2.1, if_neg Bool.false_ne_true, hne, Bool.false_or]
  have hpath : path.toList ≠ [] := fun hnil => by simp [String.toList_eq_nil_iff.1 hnil] at hne
  split
  · next hslash =>
    obtain ⟨cs, hcs⟩ := List.getLast?_eq_some_iff.1 (of_decide_eq_true hslash)
    have hjoined : (path ++ name).toList = cs ++ '/' :: name.toList := by simp [hcs]
    have hinner : inner (cs ++ ['/']) = inner cs := by rw [inner_slash]; exact List.append_nil _
    rw [parts_of_slash hjoined, inner_name h, parts_eq, hcs, hinner]
  · have hjoined : (path ++ "/" ++ name).toList = path.toList ++ '/' :: name.toList := by simp
    rw [parts_of_slash hjoined, lead_append_slash hpath, inner_name h, parts_eq]

/-! ### Paths that are written from their parts -/

def Part.IsStep : Part → Prop
  | .root => False
  | .here => False
  | .up => True
  | .name s => IsName s

def IsFront (front : List Part) : Prop := front = [] ∨ front = [.root] ∨ front = [.here]

theorem Part.IsStep.partOf?_text {p : Part} (h : p.IsStep) :
    partOf? p.text = some p ∧ Plain p.text ∧ p.text.isEmpty = false := by
  cases p with
  | root => exact h.elim
  | here => exact h.elim
  | up => exact ⟨rfl, by decide, rfl⟩
  | name s => exact ⟨by rw [Part.text, partOf?, if_neg h.2.2.1, if_neg h.2.2.2], h.2.1, h.1⟩

theorem isStep_of_partOf? {piece : String} {p : Part} (hplain : Plain piece) (hempty : piece.isEmpty = false)
    (h : partOf? piece = some p) : p.IsStep ∧ p.text = piece := by
  unfold partOf? at h
  split at h
  · cases h
  · next hdot =>
    split at h
    · next hup =>
      cases h
      exact ⟨trivial, hup.symm⟩
    · next hup =>
      cases h
      exact ⟨⟨hempty, hplain, hdot, hup⟩, rfl⟩

/-- Behind its front a path is the steps that its pieces stand for. -/
theorem exists_front (path : String) : ∃ front, IsFront front ∧ (.root ∈ front ↔ isAbsolute path = true) ∧
    parts path = front ++ (pieces path).filterMap partOf? := by
  rw [parts]
  split
  · next h => exact ⟨[.root], .inr (.inl rfl), by simp [h], rfl⟩
  · next h =>
    split
    · exact ⟨[.here], .inr (.inr rfl), by simp [h], rfl⟩
    · exact ⟨[], .inl rfl, by simp [h], rfl⟩

theorem isStep_of_mem_pieces {p : Part} (h : p ∈ (pieces path).filterMap partOf?) :
    p.IsStep ∧ p.text ∈ pieces path := by
  obtain ⟨piece, hmem, hpiece⟩ := List.mem_filterMap.1 h
  obtain ⟨hplain, hempty⟩ := plain_of_mem_pieces hmem
  obtain ⟨hstep, rfl⟩ := isStep_of_partOf? hplain hempty hpiece
  exact ⟨hstep, hmem⟩

theorem root_mem_parts_iff (path : String) : .root ∈ parts path ↔ isAbsolute path = true := by
  obtain ⟨front, -, hfront, hparts⟩ := exists_front path
  rw [hparts, List.mem_append, hfront, or_iff_left]
  exact fun h => (isStep_of_mem_pieces h).1

theorem pieces_intercalate {texts : List String} (h : ∀ t ∈ texts, Plain t ∧ t.isEmpty = false) :
    pieces ("/".intercalate texts) = texts := by
  induction texts with
  | nil => rfl
  | cons t texts ih =>
    obtain ⟨hplain, hempty⟩ := h t List.mem_cons_self
    cases texts with
    | nil => rw [String.intercalate_singleton, pieces_of_plain hplain hempty]
    | cons u texts =>
      have htext : ("/".intercalate (t :: u :: texts)).toList =
          t.toList ++ '/' :: ("/".intercalate (u :: texts)).toList := by
        simp [String.intercalate_cons_cons]
      rw [pieces_slash _ _ htext, String.ofList_toList, String.ofList_toList, pieces_of_plain hplain hempty,
        ih fun x hx => h x (List.mem_cons_of_mem t hx)]
      rfl

/-- A path that begins with a piece has that piece in front of its first slash. -/
theorem head_splitOn_intercalate {t : String} (ht : Plain t) (texts : List String) :
    (("/".intercalate (t :: texts)).toList.splitOn '/').head? = some t.toList := by
  cases texts with
  | nil => rw [String.intercalate_singleton, List.splitOn_eq_singleton ht, List.head?_cons]
  | cons u texts =>
    have htext : ("/".intercalate (t :: u :: texts)).toList =
        t.toList ++ '/' :: ("/".intercalate (u :: texts)).toList := by
      simp [String.intercalate_cons_cons]
    rw [htext, List.splitOn_append_cons_self, List.splitOn_eq_singleton ht]
    rfl

section OfParts
variable {front ps : List Part}

theorem filterMap_partOf?_text (h : ∀ p ∈ ps, p.IsStep) : (ps.map Part.text).filterMap partOf? = ps := by
  rw [List.filterMap_map]
  calc ps.filterMap (partOf? ∘ Part.text) = ps.filterMap some :=
        List.filterMap_congr fun p hp => (h p hp).partOf?_text.1
    _ = ps := List.filterMap_some

theorem ofParts_of_head_ne_root (h : ps.head? ≠ some .root) : ofParts ps = "/".intercalate (ps.map Part.text) := by
  cases ps with
  | nil => rfl
  | cons p ps =>
    cases p with
    | root => exact absurd rfl h
    | here => rfl
    | up => rfl
    | name s => rfl

theorem head_ne_root (h : ∀ p ∈ ps, p.IsStep) : ps.head? ≠ some .root :=
  fun hroot => h .root (List.mem_of_mem_head? hroot)

theorem plain_text (h : ∀ p ∈ ps, p.IsStep) : ∀ t ∈ ps.map Part.text, Plain t ∧ t.isEmpty = false := by
  intro t ht
  obtain ⟨p, hp, rfl⟩ := List.mem_map.1 ht
  exact (h p hp).partOf?_text.2

theorem pieces_ofParts (hfront : IsFront front) (h : ∀ p ∈ ps, p.IsStep) :
    pieces (ofParts (front ++ ps)) = (if front = [.here] then ["."] else []) ++ ps.map Part.text := by
  rcases hfront with rfl | rfl | rfl
  · rw [List.nil_append, ofParts_of_head_ne_root (head_ne_root h), pieces_intercalate (plain_text h)]
    rfl
  · have hpath : (ofParts ([.root] ++ ps)).toList = [] ++ '/' :: ("/".intercalate (ps.map Part.text)).toList := by
      simp [ofParts]
    rw [pieces_slash _ _ hpath, String.ofList_toList, pieces_intercalate (plain_text h)]
    rfl
  · rw [ofParts_of_head_ne_root (by simp)]
    exact pieces_intercalate (List.forall_mem_cons.2 ⟨by decide, plain_text h⟩)

theorem isAbsolute_intercalate {texts : List String} (h : ∀ t ∈ texts, Plain t ∧ t.isEmpty = false) :
    isAbsolute ("/".intercalate texts) = false := by
  cases texts with
  | nil => rfl
  | cons t texts =>
    obtain ⟨hplain, hempty⟩ := h t List.mem_cons_self
    have hne : t.toList ≠ [] := by simpa using hempty
    have hhead : ("/".intercalate (t :: texts)).toList.head? = t.toList.head? := by
      cases texts with
      | nil => rw [String.intercalate_singleton]
      | cons u texts => simp [String.intercalate_cons_cons, List.head?_append_of_ne_nil _ hne]
    have hrelative := isAbsolute_of_plain hplain
    rwa [isAbsolute, ← hhead] at hrelative

/-- What is written from the parts of a path has these parts. -/
theorem parts_ofParts (hfront : IsFront front) (h : ∀ p ∈ ps, p.IsStep) :
    parts (ofParts (front ++ ps)) = front ++ ps := by
  have hpieces := pieces_ofParts hfront h
  have hsteps := filterMap_partOf?_text h
  rw [parts, hpieces]
  rcases hfront with rfl | rfl | rfl
  · rw [List.nil_append, ofParts_of_head_ne_root (head_ne_root h), isAbsolute_intercalate (plain_text h)]
    have hlead : (("/".intercalate (ps.map Part.text)).toList.splitOn '/').head? ≠ some ['.'] := by
      cases ps with
      | nil => decide
      | cons p ps =>
        have hp := h p List.mem_cons_self
        rw [List.map_cons, head_splitOn_intercalate hp.partOf?_text.2.1]
        intro hdot
        have htext : p.text = "." := String.toList_inj.1 (Option.some.inj hdot)
        have hsome := hp.partOf?_text.1
        rw [htext] at hsome
        cases hsome
    rw [if_neg hlead]
    simpa using hsteps
  · have habsolute : isAbsolute (ofParts ([.root] ++ ps)) = true := by simp [isAbsolute, ofParts]
    rw [habsolute]
    simpa using hsteps
  · have htexts : ∀ t ∈ ([Part.here] ++ ps).map Part.text, Plain t ∧ t.isEmpty = false :=
      List.forall_mem_cons.2 ⟨by decide, plain_text h⟩
    have hlead : (("/".intercalate (([Part.here] ++ ps).map Part.text)).toList.splitOn '/').head? = some ['.'] :=
      head_splitOn_intercalate (by decide) (ps.map Part.text)
    rw [ofParts_of_head_ne_root (by simp), isAbsolute_intercalate htexts, if_pos hlead]
    simpa [partOf?] using hsteps

end OfParts

theorem parts_ofParts_along (h : ∀ n ∈ names, IsName n) :
    parts (ofParts (along absolute names)) = along absolute names := by
  have hsteps : ∀ p ∈ names.map Part.name, p.IsStep := by
    intro p hp
    obtain ⟨n, hn, rfl⟩ := List.mem_map.1 hp
    exact h n hn
  refine parts_ofParts ?_ hsteps
  cases absolute with
  | true => exact .inr (.inl rfl)
  | false => exact .inl rfl

end Parts
end FilePath

namespace FileSystem
open FilePath

variable {fs : FileSystem} {path p q name : String} {a b : List String}

/-- The parts of a path tell where it settles. -/
theorem settled_eq (fs : FileSystem) (path : String) :
    fs.settled path = (parts path).foldl Part.further fs.workingDirectory := by
  rw [settled, foldl_settle_eq, origin, parts]
  split
  · rfl
  · split <;> rfl

/-- Spellings with the same parts lead to the same place. -/
theorem locate_same (hsame : same p q = true) (hp : fs.locate p = .ok a) (hq : fs.locate q = .ok b) : a = b := by
  have hparts : parts p = parts q := of_decide_eq_true hsame
  rw [eq_settled hp, eq_settled hq, settled_eq, settled_eq, hparts]

/-- Paths that are written with names only have the same parts if they lead to the same place. -/
theorem same_of_along {absolute : Bool} (hp : Along absolute p) (hq : Along absolute q) (hpa : fs.locate p = .ok a)
    (hqa : fs.locate q = .ok a) : same p q = true := by
  obtain ⟨names, -, hnames⟩ := hp
  obtain ⟨names', -, hnames'⟩ := hq
  have hplace := (eq_settled hpa).symm.trans (eq_settled hqa)
  rw [settled_eq, settled_eq, hnames, hnames', along, along, List.foldl_append, List.foldl_append,
    foldl_further_names, foldl_further_names] at hplace
  have hsame := List.append_cancel_left hplace
  rw [same, hnames, hnames', hsame, decide_eq_true rfl]

end FileSystem
end Tabulate
