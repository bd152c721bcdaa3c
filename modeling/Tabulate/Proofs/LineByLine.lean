import Tabulate.Proofs.Splitting

/-! Cutting a file into documents line by line. The piece that is begun is carried from line to line, and
what is left of a line is cut again at each declaration that does not open the piece. Every round of the
loop takes text away from the line or ends the piece, so the loop ends, and it finds the same documents. -/
namespace Tabulate

def Text.linesWithEnds : List Char → List (List Char)
  | [] => []
  | c :: cs =>
    if c = '\n' then [c] :: linesWithEnds cs
    else match linesWithEnds cs with
      | [] => [[c]]
      | l :: ls => (c :: l) :: ls

def Text.AreLines : List (List Char) → Prop
  | [] => True
  | l :: ls => '\n' ∉ l.dropLast ∧ (ls = [] ∨ l.getLast? = some '\n') ∧ AreLines ls

theorem Text.flatten_linesWithEnds (cs : List Char) : (linesWithEnds cs).flatten = cs := by
  induction cs with
  | nil => rfl
  | cons c cs ih =>
    rw [linesWithEnds]
    split
    · rw [List.flatten_cons, ih, List.singleton_append]
    · split
      · next hnil =>
        rw [hnil] at ih
        rw [← ih]
        rfl
      · next l ls hcons =>
        rw [hcons] at ih
        rw [← ih]
        rfl

theorem Text.areLines_linesWithEnds (cs : List Char) : AreLines (linesWithEnds cs) := by
  induction cs with
  | nil => trivial
  | cons c cs ih =>
    rw [linesWithEnds]
    split
    · next hc => exact ⟨by simp, .inr (by simp [hc]), ih⟩
    · next hc =>
      split
      · exact ⟨by simp, .inl rfl, trivial⟩
      · next l ls hcons =>
        rw [hcons] at ih
        obtain ⟨hinner, hlast, hls⟩ := ih
        refine ⟨?_, ?_, hls⟩
        · cases l with
          | nil => simp
          | cons d l =>
            rw [List.dropLast_cons_cons, List.mem_cons, not_or]
            exact ⟨fun h => hc h.symm, hinner⟩
        · cases hlast with
          | inl hnil => exact .inl hnil
          | inr hlast =>
            cases l with
            | nil => cases hlast
            | cons d l => exact .inr (by rw [List.getLast?_cons_cons, hlast])

namespace RawDocument

structure Scan where
  documents : List RawDocument := []
  piece : List Char := []
  start : Nat := 0

def nextOpening? (piece rest : List Char) : Option Nat :=
  let skip := if piece.isEmpty && Text.startsWith opening rest then opening.length else 0
  (Text.cut? opening (rest.drop skip)).map fun cut => skip + cut.1.length

section NextOpening
variable {piece rest : List Char} {n k : Nat}

theorem not_opening_inside (h : opening <+: rest) (hk : 0 < k) (hlength : k < opening.length) :
    ¬opening <+: rest.drop k := by
  intro hinner
  obtain ⟨more, rfl⟩ := h
  rw [List.drop_append_of_le_length (Nat.le_of_lt hlength)] at hinner
  have hne : opening.drop k ≠ [] := List.ne_nil_of_length_pos (by rw [List.length_drop]; omega)
  obtain ⟨c, cs, hcs⟩ := List.exists_cons_of_ne_nil hne
  have hmem : c ∈ opening.drop 1 := by
    have hsub : opening.drop k <:+ opening.drop 1 := List.drop_suffix_drop_left opening hk
    exact hsub.subset (hcs ▸ List.mem_cons_self ..)
  rw [hcs, opening_eq_cons, List.cons_append, List.cons_prefix_cons] at hinner
  rw [← hinner.1] at hmem
  exact absurd hmem (by decide)

theorem nextOpening?_eq_none (h : nextOpening? piece rest = none) (hk : piece = [] → 0 < k) :
    ¬opening <+: rest.drop k := by
  rw [nextOpening?, Option.map_eq_none_iff] at h
  by_cases hskip : (piece.isEmpty && Text.startsWith opening rest) = true
  · rw [if_pos hskip] at h
    rw [Bool.and_eq_true, List.isEmpty_iff, Text.startsWith_iff] at hskip
    by_cases hlength : k < opening.length
    · exact not_opening_inside hskip.2 (hk hskip.1) hlength
    · have hlater := Text.cut?_eq_none h (k - opening.length)
      rwa [List.drop_drop, Nat.add_sub_cancel' (by omega)] at hlater
  · rw [if_neg hskip, List.drop_zero] at h
    exact Text.cut?_eq_none h k

theorem nextOpening?_eq_some (h : nextOpening? piece rest = some n) :
    opening <+: rest.drop n ∧ (piece = [] → 0 < n) ∧
      ∀ k < n, (piece = [] → 0 < k) → ¬opening <+: rest.drop k := by
  obtain ⟨⟨before, after⟩, hcut, hn⟩ := Option.map_eq_some_iff.1 h
  have hrest := Text.eq_of_cut? hcut
  have hfirst {k : Nat} (hk : k < before.length) := Text.not_prefix_of_cut? hcut hk
  by_cases hskip : (piece.isEmpty && Text.startsWith opening rest) = true
  · rw [if_pos hskip] at hn hrest hfirst
    rw [Bool.and_eq_true, List.isEmpty_iff, Text.startsWith_iff] at hskip
    dsimp only at hn
    refine ⟨?_, fun _ => ?_, fun k hk hpiece => ?_⟩
    · rw [← hn, ← List.drop_drop, hrest, List.append_assoc, List.drop_left]
      exact List.prefix_append opening after
    · have hpos : 0 < opening.length := by decide
      omega
    · by_cases hlength : k < opening.length
      · exact not_opening_inside hskip.2 (hpiece hskip.1) hlength
      · have hlater := hfirst (k := k - opening.length) (by omega)
        rwa [List.drop_drop, Nat.add_sub_cancel' (by omega)] at hlater
  · rw [if_neg hskip] at hn hrest hfirst
    dsimp only at hn
    rw [Nat.zero_add] at hn
    rw [List.drop_zero] at hrest hfirst
    have hopens : opening <+: rest.drop n := by
      rw [← hn, hrest, List.append_assoc, List.drop_left]
      exact List.prefix_append opening after
    refine ⟨hopens, fun hpiece => ?_, fun k hk _ => hfirst (by omega)⟩
    cases n with
    | succ n => exact Nat.succ_pos n
    | zero =>
      rw [List.drop_zero, ← Text.startsWith_iff] at hopens
      exact absurd (by rw [hpiece, hopens]; rfl) hskip

end NextOpening

namespace Scan

/-- End the piece with a text and begin one on another line. -/
def endPiece (s : Scan) (filename : String) (more : List Char) (line : Nat) : Scan where
  documents := s.documents ++
    if (s.piece ++ more).all Text.isBlank then []
    else [⟨filename, s.start + 1, String.ofList (s.piece ++ more)⟩]
  piece := []
  start := line

def line (filename : String) (index : Nat) (s : Scan) (rest : List Char) : Scan :=
  match _h : nextOpening? s.piece rest with
  | none => { s with piece := s.piece ++ rest }
  | some n => line filename index (s.endPiece filename (rest.take n) index) (rest.drop n)
termination_by (rest.length, s.piece.length)
decreasing_by
  obtain ⟨hopens, hpiece, -⟩ := nextOpening?_eq_some _h
  have hrest : 0 < (rest.drop n).length := Nat.lt_of_lt_of_le (by decide) hopens.length_le
  rw [List.length_drop] at hrest
  by_cases hn : n = 0
  · subst hn
    have hpos : 0 < s.piece.length := by
      apply List.length_pos_iff.2
      intro hnil
      exact Nat.lt_irrefl 0 (hpiece hnil)
    exact Prod.Lex.right _ hpos
  · apply Prod.Lex.left
    rw [List.length_drop]
    omega

def lines (filename : String) (index : Nat) (s : Scan) : List (List Char) → Scan
  | [] => s
  | l :: ls => lines filename (index + 1) (s.line filename index l) ls

end Scan

def scan (filename content : String) : List RawDocument :=
  let s := Scan.lines filename 0 {} (Text.linesWithEnds content.toList)
  (s.endPiece filename [] 0).documents

/-! ### What a scan has found -/

theorem undivided_append {q x : List Char} (hq : Undivided q) (he : q = [] ∨ q.getLast? = some '\n')
    (hx : ∀ k, (q = [] → 0 < k) → ¬opening <+: x.drop k) : Undivided (q ++ x) := by
  intro k hk hopens
  by_cases hlength : k < q.length
  · rw [List.drop_append_of_le_length (Nat.le_of_lt hlength)] at hopens
    have hend : '\n' ∈ q.drop k := by
      cases he with
      | inl hnil => simp [hnil] at hlength
      | inr hlast =>
        apply List.mem_of_getLast?
        rw [List.getLast?_drop, if_neg (by omega), hlast]
    exact hq k hk (opening_prefix_of_line hopens hend)
  · rw [List.drop_append, List.drop_eq_nil_of_le (by omega), List.nil_append] at hopens
    refine hx (k - q.length) (fun hnil => ?_) hopens
    simp [hnil, hk]

/-- A piece grows up to a declaration that nothing in it comes before. -/
theorem undivided_take {q rest : List Char} {n : Nat} (hq : Undivided q)
    (he : q = [] ∨ q.getLast? = some '\n')
    (hfirst : ∀ k < n, (q = [] → 0 < k) → ¬opening <+: rest.drop k) : Undivided (q ++ rest.take n) := by
  refine undivided_append hq he fun k hk hopens => ?_
  by_cases hkn : k < n
  · refine hfirst k hkn hk (hopens.trans ?_)
    rw [List.drop_take]
    exact List.take_prefix ..
  · rw [List.drop_eq_nil_of_le (by rw [List.length_take]; omega)] at hopens
    exact absurd hopens (by decide)

/-- A line ends at its only newline. -/
theorem count_take_of_line {rest : List Char} {n : Nat} (hline : '\n' ∉ rest.dropLast)
    (hshort : n < rest.length) : (rest.take n).count '\n' = 0 := by
  rw [List.count_eq_zero]
  intro hmem
  apply hline
  rw [List.dropLast_eq_take]
  exact (List.take_prefix_take_left (show n ≤ rest.length - 1 by omega)).subset hmem

namespace Scan

/-- What a scan has found in a text: the pieces that are done and the one that is begun, which goes on
with the rest of the line. -/
structure Found (s : Scan) (filename : String) (text rest : List Char) (ps : List (List Char)) : Prop where
  whole : ps.flatten ++ s.piece = text
  documents : s.documents = numbered filename 1 ps
  start : s.start = ps.flatten.count '\n'
  opened : ∀ p ∈ ps.tail, opening <+: p
  opens : ps ≠ [] → opening <+: s.piece ++ rest
  undivided : ∀ p ∈ ps, Undivided p
  piece : Undivided s.piece

section Found
variable {s : Scan} {filename : String} {text rest : List Char} {ps : List (List Char)} {index n : Nat}

theorem Found.of_nil (h : s.Found filename text [] ps) (rest : List Char) : s.Found filename text rest ps where
  whole := h.whole
  documents := h.documents
  start := h.start
  opened := h.opened
  opens hps := by
    have hopens := h.opens hps
    rw [List.append_nil] at hopens
    exact hopens.trans (List.prefix_append s.piece rest)
  undivided := h.undivided
  piece := h.piece

/-- The line is used up: its rest goes to the piece. -/
theorem Found.finish (h : s.Found filename text rest ps) (he : s.piece = [] ∨ s.piece.getLast? = some '\n')
    (hn : nextOpening? s.piece rest = none) :
    ({ s with piece := s.piece ++ rest } : Scan).Found filename (text ++ rest) [] ps where
  whole := by rw [← h.whole, List.append_assoc]
  documents := h.documents
  start := h.start
  opened := h.opened
  opens hps := by
    rw [List.append_nil]
    exact h.opens hps
  undivided := h.undivided
  piece := undivided_append h.piece he fun k hk => nextOpening?_eq_none hn hk

/-- The piece is ended before a declaration, and the next one begins on this line. -/
theorem Found.next (h : s.Found filename text rest ps) (he : s.piece = [] ∨ s.piece.getLast? = some '\n')
    (hindex : index = text.count '\n') (hline : '\n' ∉ rest.dropLast)
    (hn : nextOpening? s.piece rest = some n) :
    (s.endPiece filename (rest.take n) index).Found filename (text ++ rest.take n) (rest.drop n)
      (ps ++ [s.piece ++ rest.take n]) := by
  obtain ⟨hopens, hpiece, hfirst⟩ := nextOpening?_eq_some hn
  have hne : rest.drop n ≠ [] := List.ne_nil_of_length_pos (Nat.lt_of_lt_of_le (by decide) hopens.length_le)
  have hshort : n < rest.length := by
    by_contra hlong
    exact hne (List.drop_eq_nil_of_le (by omega))
  have hbegun : s.piece ++ rest.take n ≠ [] := by
    intro hnil
    obtain ⟨hp, ht⟩ := List.append_eq_nil_iff.1 hnil
    have hpos := hpiece hp
    have hzero : min n rest.length = 0 := by rw [← List.length_take, ht, List.length_nil]
    omega
  refine ⟨?_, ?_, ?_, ?_, fun _ => hopens, ?_, ?_⟩
  · rw [← h.whole]
    simp [endPiece]
  · rw [numbered_append, ← h.documents, ← h.start, endPiece, Nat.add_comm 1]
    dsimp only [numbered]
  · show index = _
    rw [List.flatten_append, List.flatten_singleton, ← List.append_assoc, h.whole, List.count_append,
      count_take_of_line hline hshort, hindex, Nat.add_zero]
  · intro p hp
    cases ps with
    | nil => cases hp
    | cons q ps =>
      rw [List.cons_append, List.tail_cons, List.mem_append] at hp
      cases hp with
      | inl hp => exact h.opened p hp
      | inr hp =>
        rw [List.mem_singleton.1 hp]
        have hwhole := h.opens (List.cons_ne_nil q ps)
        rw [← List.take_append_drop n rest, ← List.append_assoc] at hwhole
        exact opening_prefix_of_opening hwhole hbegun (.inr hopens)
  · intro p hp
    rw [List.mem_append] at hp
    cases hp with
    | inl hp => exact h.undivided p hp
    | inr hp =>
      rw [List.mem_singleton.1 hp]
      exact undivided_take h.piece he hfirst
  · intro k _
    rw [endPiece, List.drop_nil]
    decide

/-- A line is gone through, whatever it holds. -/
theorem Found.line (h : s.Found filename text rest ps) (he : s.piece = [] ∨ s.piece.getLast? = some '\n')
    (hindex : index = text.count '\n') (hline : '\n' ∉ rest.dropLast) :
    ∃ qs, (s.line filename index rest).Found filename (text ++ rest) [] qs := by
  induction s, rest using Scan.line.induct filename index generalizing text ps with
  | case1 s rest hn =>
    refine ⟨ps, ?_⟩
    rw [Scan.line]
    split
    · exact h.finish he hn
    · next hsome => exact absurd (hn.symm.trans hsome) nofun
  | case2 s rest n hn ih =>
    have hnext := h.next he hindex hline hn
    have hcount : index = (text ++ rest.take n).count '\n' := by
      rw [← hnext.whole, List.count_append]
      exact hnext.start
    have hlater : '\n' ∉ (rest.drop n).dropLast := by
      rw [List.dropLast_eq_take] at hline ⊢
      rw [List.length_drop, Nat.sub_right_comm, ← List.drop_take]
      exact fun hmem => hline (List.mem_of_mem_drop hmem)
    obtain ⟨qs, hqs⟩ := ih hnext (.inl rfl) hcount hlater
    refine ⟨qs, ?_⟩
    rw [List.append_assoc, List.take_append_drop] at hqs
    rw [Scan.line]
    split
    · next hnone => exact absurd (hn.symm.trans hnone) nofun
    · next m hsome =>
      obtain rfl : n = m := Option.some.inj (hn.symm.trans hsome)
      exact hqs

/-- A line after the other is gone through. -/
theorem Found.lines {ls : List (List Char)} (h : s.Found filename text [] ps) (hls : Text.AreLines ls)
    (he : s.piece = [] ∨ s.piece.getLast? = some '\n') (hindex : index = text.count '\n') :
    ∃ qs, (s.lines filename index ls).Found filename (text ++ ls.flatten) [] qs := by
  induction ls generalizing s text ps index with
  | nil =>
    rw [List.flatten_nil, List.append_nil]
    exact ⟨ps, h⟩
  | cons l ls ih =>
    obtain ⟨hinner, hlast, hls⟩ := hls
    obtain ⟨qs, hqs⟩ := (h.of_nil l).line he hindex hinner
    cases hlast with
    | inl hnil =>
      subst hnil
      rw [List.flatten_singleton]
      exact ⟨qs, hqs⟩
    | inr hlast =>
      have hended : (s.line filename index l).piece = [] ∨
          (s.line filename index l).piece.getLast? = some '\n' := by
        cases hp : (s.line filename index l).piece with
        | nil => exact .inl rfl
        | cons c p =>
          have hwhole := congrArg List.getLast? hqs.whole
          rw [hp, List.getLast?_append_of_ne_nil _ (List.cons_ne_nil c p)] at hwhole
          rw [hwhole, List.getLast?_append, hlast]
          exact .inr rfl
      have hcount : index + 1 = (text ++ l).count '\n' := by
        obtain ⟨front, rfl⟩ := List.getLast?_eq_some_iff.1 hlast
        rw [List.dropLast_concat] at hinner
        rw [List.count_append, List.count_append, ← hindex, List.count_eq_zero_of_not_mem hinner]
        rfl
      obtain ⟨rs, hrs⟩ := ih hqs hls hended hcount
      rw [List.append_assoc] at hrs
      exact ⟨rs, hrs⟩

theorem found_nil (filename : String) : ({} : Scan).Found filename [] [] [] where
  whole := rfl
  documents := rfl
  start := rfl
  opened := nofun
  opens h := absurd rfl h
  undivided := nofun
  piece k _ := by
    rw [List.drop_nil]
    decide

/-- The pieces that have been found are a cut of the text. -/
theorem Found.isCut (h : s.Found filename text [] ps) :
    ∃ first more, ps ++ [s.piece] = first :: more ∧ IsCut text first more := by
  have hundivided : ∀ p ∈ ps ++ [s.piece], Undivided p := by
    intro p hp
    rw [List.mem_append, List.mem_singleton] at hp
    cases hp with
    | inl hp => exact h.undivided p hp
    | inr hp => exact hp ▸ h.piece
  cases ps with
  | nil => exact ⟨s.piece, [], rfl, ⟨by simpa using h.whole.symm, nofun, hundivided⟩⟩
  | cons q ps =>
    refine ⟨q, ps ++ [s.piece], rfl, ⟨?_, ?_, hundivided⟩⟩
    · rw [← h.whole]
      simp
    · intro p hp
      rw [List.mem_append, List.mem_singleton] at hp
      cases hp with
      | inl hp => exact h.opened p hp
      | inr hp =>
        have hopens := h.opens (List.cons_ne_nil q ps)
        rw [List.append_nil] at hopens
        exact hp ▸ hopens

end Found

end Scan

/-- A scan has cut the text, and its documents are the pieces. -/
theorem scan_eq_split (filename content : String) : scan filename content = split filename content := by
  obtain ⟨ps, h⟩ := (Scan.found_nil filename).lines (Text.areLines_linesWithEnds content.toList) (.inl rfl) rfl
  rw [Text.flatten_linesWithEnds, List.nil_append] at h
  obtain ⟨first, more, heq, hcut⟩ := h.isCut
  rw [hcut.split_eq, ← heq, ← numbered_one, numbered_append, ← h.documents, ← h.start, scan, Scan.endPiece,
    List.append_nil, Nat.add_comm 1]
  rfl

/-- A file is cut before each of its declarations, and its documents are the pieces that are not blank,
each on the line that it begins on, however it is cut. Their texts are all of the file but for blanks in
front, and going through it line by line finds the same documents. -/
theorem split_isCut (filename content : String) :
    (∃ first more, IsCut content.toList first more ∧
      split filename content = documentsOf filename (first :: more) ∧
      content.toList = (if first.all Text.isBlank then first else []) ++
        (split filename content).flatMap (·.text.toList)) ∧
    (∀ first more, IsCut content.toList first more →
      split filename content = documentsOf filename (first :: more)) ∧
    scan filename content = split filename content := by
  obtain ⟨hcut, -⟩ := isCut_pieces content.toList
  exact ⟨⟨_, _, hcut, hcut.split_eq, hcut.eq_append_texts⟩, fun _ _ h => h.split_eq,
    scan_eq_split filename content⟩

end RawDocument

end Tabulate
