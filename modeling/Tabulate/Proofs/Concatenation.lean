import Tabulate.Proofs.Encoding
import Tabulate.Proofs.Written
import Tabulate.Proofs.Splitting
import Tabulate.Xml.Builder

/-! Documents written one after another into a file. Each is found again, up to the blanks around it. A
byte order mark in front of them is no blank, and is taken for a document of its own. -/
namespace Tabulate

namespace RawDocument

/-- A document that begins with its declaration and holds no other. None is begun at its end either, where
a blank could complete it: a document ends with a bracket or with blanks. -/
structure Declared (p : List Char) : Prop where
  opened : opening <+: p
  single : Undivided (p ++ [' '])

section Declared
variable {p w : List Char}

theorem Undivided.of_append (h : Undivided (p ++ w)) : Undivided p := by
  intro k hk hopening
  refine h k hk (hopening.trans ?_)
  rw [List.drop_append]
  exact List.prefix_append _ _

theorem undivided_of_not_mem (h : '<' ∉ p) : Undivided p := by
  intro k _ hopening
  have hmem : '<' ∈ p.drop k := hopening.subset (by decide)
  exact h (List.mem_of_mem_drop hmem)

theorem undivided_of_pieces (h : pieces p = ([], [p])) : Undivided p := by
  have hcut := (isCut_pieces p).1.undivided
  rw [h] at hcut
  exact hcut p (by simp)

/-- Of a declaration only the last character is a blank. -/
theorem eq_of_opening_eq {q v : List Char} (h : opening = q ++ v) (hv : v ≠ []) (hblank : Blank v) :
    v = [' '] := by
  have hends : ∀ i < opening.length, (opening.drop i).all Text.isBlank = true → opening.drop i = [' '] := by decide
  have hdrop : opening.drop q.length = v := by rw [h, List.drop_left]
  have hlength : q.length < opening.length := by
    rw [h, List.length_append]
    have hpositive := List.length_pos_of_ne_nil hv
    omega
  rw [← hdrop]
  apply hends q.length hlength
  rw [hdrop, List.all_eq_true]
  exact hblank

/-- Where a declaration reaches over the end of a text into blanks, it lacks only the last character. -/
theorem opening_over_end (h : opening <+: p ++ w) (hno : ¬opening <+: p) (hw : Blank w) :
    opening = p ++ [' '] := by
  obtain hwhole | ⟨v, hv, heq, hstart⟩ := opening_prefix_append h
  · exact absurd hwhole hno
  · rw [eq_of_opening_eq heq hv fun c hc => hw c (hstart.subset hc)] at heq
    exact heq

theorem Declared.undivided_append (h : Declared p) (hw : Blank w) : Undivided (p ++ w) := by
  intro k hk hopening
  by_cases hlength : p.length ≤ k
  · rw [List.drop_append, List.drop_eq_nil_of_le hlength, List.nil_append] at hopening
    have hmem : '<' ∈ w := List.mem_of_mem_drop (hopening.subset (by decide))
    exact hw.not_mem (by decide) hmem
  · rw [List.drop_append_of_le_length (by omega)] at hopening
    have hend := opening_over_end hopening (h.single.of_append k hk) hw
    have hspaced : (p ++ [' ']).drop k = opening := by rw [List.drop_append_of_le_length (by omega), ← hend]
    exact h.single k hk (hspaced.symm ▸ List.prefix_refl _)

/-- A text that does not end as the beginning of a declaration does is not completed to one. -/
theorem declared_of_getLast (hopened : opening <+: p) (hsingle : Undivided p) (hlast : p.getLast? ≠ some 'l') :
    Declared p := by
  refine ⟨hopened, fun k hk hopening => ?_⟩
  rw [List.drop_append] at hopening
  have hspace : Blank ([' '].drop (k - p.length)) := fun c hc => by
    rw [List.mem_singleton.1 (List.mem_of_mem_drop hc)]
    decide
  have hend := opening_over_end hopening (hsingle k hk) hspace
  have hbegun : p.drop k = "<?xml".toList := List.append_cancel_right (hend.symm.trans rfl)
  rw [← List.take_append_drop k p, hbegun, List.getLast?_append] at hlast
  exact hlast rfl

end Declared

section Files
variable {filename path : String} {fs : FileSystem} {lead : List Char} {written : List (List Char × List Char)}
  {more : List (List Char)}

def byteOrderMark : Char := '\uFEFF'

def concatenation (marked : Bool) (lead : List Char) (written : List (List Char × List Char)) : List Char :=
  (if marked then byteOrderMark :: lead else lead) ++ written.flatMap fun x => x.1 ++ x.2

/-- The documents that were written, one for each and in their order, up to the blanks around them. -/
def Found (written : List (List Char × List Char)) (rs : List RawDocument) : Prop :=
  rs.map (fun r => Text.trim r.text.toList) = written.map fun x => Text.trim x.1

/-- What begins with a declaration is never left out. -/
theorem map_text_numbered (filename : String) (line : Nat) (h : ∀ p ∈ more, opening <+: p) :
    (numbered filename line more).map (·.text.toList) = more := by
  induction more generalizing line with
  | nil => rfl
  | cons p more ih =>
    have hblank := not_blank_of_opening (h p (by simp))
    rw [numbered, hblank]
    simp only [Bool.false_eq_true, if_false, List.map_cons, String.toList_ofList,
      ih _ fun q hq => h q (List.mem_cons_of_mem _ hq)]

theorem found_numbered (filename : String) (line : Nat) (h : ∀ x ∈ written, Declared x.1 ∧ Blank x.2) :
    Found written (numbered filename line (written.map fun x => x.1 ++ x.2)) := by
  have hopened : ∀ p ∈ written.map fun x => x.1 ++ x.2, opening <+: p := by
    intro p hp
    obtain ⟨x, hx, rfl⟩ := List.mem_map.1 hp
    exact (h x hx).1.opened.trans (List.prefix_append _ _)
  have htexts := congrArg (List.map Text.trim) (map_text_numbered filename line hopened)
  rw [List.map_map, List.map_map] at htexts
  refine htexts.trans (List.map_congr_left fun x hx => ?_)
  exact trim_append_blank (h x hx).2 x.1

theorem isCut_concatenation (marked : Bool) (hlead : Blank lead) (h : ∀ x ∈ written, Declared x.1 ∧ Blank x.2) :
    IsCut (concatenation marked lead written) (if marked then byteOrderMark :: lead else lead)
      (written.map fun x => x.1 ++ x.2) where
  whole := by rw [concatenation, List.flatMap_def]
  opened p hp := by
    obtain ⟨x, hx, rfl⟩ := List.mem_map.1 hp
    exact (h x hx).1.opened.trans (List.prefix_append _ _)
  undivided := by
    refine List.forall_mem_cons.2 ⟨undivided_of_not_mem ?_, fun p hp => ?_⟩
    · have hno : '<' ∉ lead := hlead.not_mem (by decide)
      cases marked with
      | false => exact hno
      | true => simp [byteOrderMark, hno]
    · obtain ⟨x, hx, rfl⟩ := List.mem_map.1 hp
      exact (h x hx).1.undivided_append (h x hx).2

/-- Blanks in front are left out, but with a byte order mark they are taken for a document. -/
theorem split_concatenation (filename : String) (marked : Bool) (hlead : Blank lead)
    (h : ∀ x ∈ written, Declared x.1 ∧ Blank x.2) :
    ∃ rs, Found written rs ∧ split filename (String.ofList (concatenation marked lead written)) =
      if marked then ⟨filename, 1, String.ofList (byteOrderMark :: lead)⟩ :: rs else rs := by
  have hcut := isCut_concatenation marked hlead h
  rw [← String.toList_ofList (l := concatenation marked lead written)] at hcut
  refine ⟨_, found_numbered filename (1 + lead.count '\n') h, ?_⟩
  rw [hcut.split_eq, ← numbered_one, numbered]
  cases marked with
  | false =>
    have hblank : lead.all Text.isBlank = true := List.all_eq_true.2 hlead
    simp [hblank]
  | true =>
    have hmark : Text.isBlank byteOrderMark = false := by decide
    have hcount : (byteOrderMark :: lead).count '\n' = lead.count '\n' :=
      List.count_cons_of_ne (by decide)
    simp [hmark, hcount]

theorem read_encode {cs : List Char} (h : fs.read path = .ok (Text.Utf8.encode cs)) :
    read fs path = .ok (split ((FilePath.fileName? path).getD path) (String.ofList cs)) := by
  rw [read, h]
  dsimp only
  rw [Text.Utf8.decodeLossy_encode]

theorem Found.length_eq {rs : List RawDocument} (h : Found written rs) : rs.length = written.length := by
  simpa using congrArg List.length h

/-- Of documents written one after another, each with its declaration and with blanks behind it, each is
found again exactly if no byte order mark stands in front of them. With one, what stands in front of them
is one document more. -/
theorem read_concatenation_iff (marked : Bool) (hlead : Blank lead) (h : ∀ x ∈ written, Declared x.1 ∧ Blank x.2)
    (hfile : fs.read path = .ok (Text.Utf8.encode (concatenation marked lead written))) :
    ((∃ rs, read fs path = .ok rs ∧ Found written rs) ↔ marked = false) ∧
      (∀ filename, Found written (split filename (String.ofList (concatenation marked lead written))) ↔
        marked = false) ∧
      (marked = true → ∃ first rs, read fs path = .ok (first :: rs) ∧ Found written rs ∧
        first.text.toList = byteOrderMark :: lead) := by
  rw [read_encode hfile]
  have hsplit (filename : String) :
      Found written (split filename (String.ofList (concatenation marked lead written))) ↔ marked = false := by
    obtain ⟨rs, hfound, hsplit⟩ := split_concatenation filename marked hlead h
    rw [hsplit]
    cases marked with
    | false => exact iff_of_true hfound rfl
    | true =>
      refine iff_of_false (fun hboth => ?_) nofun
      have hlength := hboth.length_eq
      rw [if_pos rfl, List.length_cons, hfound.length_eq] at hlength
      omega
  refine ⟨?_, hsplit, fun hmarked => ?_⟩
  · simpa using hsplit ((FilePath.fileName? path).getD path)
  · obtain ⟨rs, hfound, hrs⟩ := split_concatenation ((FilePath.fileName? path).getD path) marked hlead h
    rw [hrs, if_pos hmarked]
    exact ⟨_, rs, rfl, hfound, String.toList_ofList⟩

/-- Two documents, the second on a line of its own, with blanks in front of and behind them. -/
theorem read_concatenation_albums :
    let album : List Char := "<?xml version='1.0'?><album/>".toList
    let track : List Char := "<?xml version='1.0'?>\n<track name='Ä'/>".toList
    let written : List (List Char × List Char) := [(album, []), (track, ['\n', ' '])]
    let fs : FileSystem := ⟨[(["a.xml"], .file (Text.Utf8.encode (concatenation false ['\n'] written)))], [], none⟩
    Blank ['\n'] ∧ (∀ x ∈ written, Declared x.1 ∧ Blank x.2) ∧
      ∃ rs, read fs "a.xml" = .ok rs ∧ Found written rs := by
  intro album track written fs
  have hlead : Blank ['\n'] := by decide
  have hwritten : ∀ x ∈ written, Declared x.1 ∧ Blank x.2 := by
    refine List.forall_mem_cons.2 ⟨⟨?_, blank_nil⟩, List.forall_mem_singleton.2 ⟨?_, ?_⟩⟩
    · exact declared_of_getLast (by decide) (undivided_of_pieces (by decide)) (by decide)
    · exact declared_of_getLast (by decide) (undivided_of_pieces (by decide)) (by decide)
    · decide
  have hfile : fs.read "a.xml" = .ok (Text.Utf8.encode (concatenation false ['\n'] written)) := by rfl
  exact ⟨hlead, hwritten, (read_concatenation_iff false hlead hwritten hfile).1.2 rfl⟩

/-- A byte order mark is one document more, though the document that is read behind it is read behind a mark as
well. -/
theorem mark_taken_for_document :
    let album : List Char := "<?xml version='1.0'?><album/>".toList
    Declared album ∧
      split "a.xml" (String.ofList (byteOrderMark :: album)) =
        [⟨"a.xml", 1, String.ofList [byteOrderMark]⟩, ⟨"a.xml", 1, String.ofList album⟩] ∧
      ¬Found [(album, [])] (split "a.xml" (String.ofList (byteOrderMark :: album))) ∧
      (Xml.Document.read? (String.ofList (byteOrderMark :: album))).isSome = true ∧
      Xml.Document.read? (String.ofList [byteOrderMark]) = none := by
  have hsplit : split "a.xml" (String.ofList (byteOrderMark :: "<?xml version='1.0'?><album/>".toList)) =
      [⟨"a.xml", 1, String.ofList [byteOrderMark]⟩, ⟨"a.xml", 1, "<?xml version='1.0'?><album/>"⟩] := by rfl
  refine ⟨declared_of_getLast (by decide) (undivided_of_pieces (by decide)) (by decide), hsplit,
    fun hfound => ?_, by rfl, by rfl⟩
  rw [hsplit] at hfound
  exact nomatch hfound.length_eq

end Files

end RawDocument

end Tabulate
