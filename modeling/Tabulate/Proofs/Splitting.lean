import Tabulate.Input.Basic
import Mathlib.Data.List.Basic

/-! Cutting a file into documents. The pieces begin with declarations and hold none further on, and the
documents are the pieces that are not blank, each with the number of its line. Going through the text
line by line, with the piece that is begun carried along, gives the same documents. -/
namespace Tabulate

theorem Text.startsWith_iff {p cs : List Char} : startsWith p cs = true ↔ p <+: cs := by
  rw [startsWith, Option.isSome_iff_exists]
  constructor
  · intro h
    obtain ⟨rest, h⟩ := h
    exact ⟨rest, (after?_eq_some_iff.1 h).symm⟩
  · intro h
    obtain ⟨rest, h⟩ := h
    exact ⟨rest, after?_eq_some_iff.2 h.symm⟩

theorem Text.cut?_eq_none {p cs : List Char} (h : cut? p cs = none) (k : Nat) : ¬p <+: cs.drop k := by
  induction cs generalizing k with
  | nil =>
    rw [cut?, Option.map_eq_none_iff] at h
    intro hp
    rw [List.drop_nil, ← startsWith_iff, startsWith, h] at hp
    cases hp
  | cons c cs ih =>
    rw [cut?] at h
    split at h
    · cases h
    · next hafter =>
      cases k with
      | zero =>
        intro hp
        rw [List.drop_zero, ← startsWith_iff, startsWith, hafter] at hp
        cases hp
      | succ k => exact ih (Option.map_eq_none_iff.1 h) k

/-- A text is cut at the first place where it can be. -/
theorem Text.not_prefix_of_cut? {p cs before rest : List Char} (h : cut? p cs = some (before, rest))
    {k : Nat} (hk : k < before.length) : ¬p <+: cs.drop k := by
  induction cs generalizing before k with
  | nil =>
    obtain ⟨r, -, hr⟩ := Option.map_eq_some_iff.1 h
    cases hr
    cases hk
  | cons c cs ih =>
    rw [cut?] at h
    split at h
    · cases h
      cases hk
    · next hafter =>
      obtain ⟨⟨b, r⟩, hcut, hr⟩ := Option.map_eq_some_iff.1 h
      cases hr
      cases k with
      | zero =>
        intro hp
        rw [List.drop_zero, ← startsWith_iff, startsWith, hafter] at hp
        cases hp
      | succ k => exact ih hcut (Nat.lt_of_succ_lt_succ hk)

namespace RawDocument

/-! ### Declarations -/

section Openings
variable {p q r : List Char}

theorem opening_eq_cons : opening = '<' :: "?xml ".toList := rfl

/-- A declaration at the border of two texts is in the first of them or reaches over the border. -/
theorem opening_prefix_append (h : opening <+: q ++ r) :
    opening <+: q ∨ ∃ v, v ≠ [] ∧ opening = q ++ v ∧ v <+: r := by
  by_cases hlength : opening.length ≤ q.length
  · exact .inl (List.prefix_of_prefix_length_le h (List.prefix_append q r) hlength)
  · obtain ⟨v, hv⟩ := List.prefix_of_prefix_length_le (List.prefix_append q r) h (by omega)
    refine .inr ⟨v, fun hnil => hlength (Nat.le_of_eq ?_), hv.symm, ?_⟩
    · rw [← hv, hnil, List.append_nil]
    · rwa [← hv, List.prefix_append_right_inj] at h

/-- No declaration reaches into another one. -/
theorem opening_prefix_of_opening (h : opening <+: q ++ r) (hq : q ≠ []) (hr : r = [] ∨ opening <+: r) :
    opening <+: q := by
  obtain h | ⟨v, hv, heq, hstart⟩ := opening_prefix_append h
  · exact h
  · obtain ⟨c, q, rfl⟩ := List.exists_cons_of_ne_nil hq
    obtain ⟨x, v, rfl⟩ := List.exists_cons_of_ne_nil hv
    have hlater : x ∈ "?xml ".toList := by
      rw [opening_eq_cons, List.cons_append, List.cons.injEq] at heq
      rw [heq.2]
      simp
    cases hr with
    | inl hnil =>
      rw [hnil, List.prefix_nil] at hstart
      cases hstart
    | inr hopened =>
      obtain ⟨rest, rfl⟩ := hopened
      rw [opening_eq_cons, List.cons_append, List.cons_prefix_cons] at hstart
      rw [hstart.1] at hlater
      exact absurd hlater (by decide)

/-- No declaration reaches over the end of a line. -/
theorem opening_prefix_of_line (h : opening <+: q ++ r) (hq : '\n' ∈ q) : opening <+: q := by
  obtain h | ⟨v, -, heq, -⟩ := opening_prefix_append h
  · exact h
  · have hmem : '\n' ∈ opening := by
      rw [heq]
      exact List.mem_append_left v hq
    exact absurd hmem (by decide)

theorem not_blank_of_opening (h : opening <+: p) : p.all Text.isBlank = false := by
  obtain ⟨rest, rfl⟩ := h
  rw [List.all_append]
  have hopening : opening.all Text.isBlank = false := by decide
  rw [hopening, Bool.false_and]

end Openings

/-! ### Pieces -/

/-- No declaration begins in a text but where the text begins. -/
def Undivided (p : List Char) : Prop := ∀ k, 0 < k → ¬opening <+: p.drop k

structure IsCut (cs first : List Char) (more : List (List Char)) : Prop where
  whole : cs = first ++ more.flatten
  opened : ∀ p ∈ more, opening <+: p
  undivided : ∀ p ∈ first :: more, Undivided p

section Pieces
variable {cs p r first : List Char} {more : List (List Char)} {c : Char}

theorem undivided_cons (h : ∀ k, ¬opening <+: p.drop k) : Undivided (c :: p) := by
  intro k hk
  obtain ⟨k, rfl⟩ := Nat.exists_eq_succ_of_ne_zero (Nat.ne_of_gt hk)
  exact h k

theorem Undivided.not_prefix_tail (h : Undivided (c :: p)) (k : Nat) : ¬opening <+: p.drop k :=
  h (k + 1) (Nat.succ_pos k)

/-- What is left behind a piece begins with a declaration, or there is nothing left. -/
theorem flatten_opened (h : ∀ p ∈ more, opening <+: p) : more.flatten = [] ∨ opening <+: more.flatten := by
  cases more with
  | nil => exact .inl rfl
  | cons p more =>
    refine .inr ((h p (by simp)).trans ?_)
    exact List.prefix_append p more.flatten

/-- A text in which no declaration begins is left in one piece. -/
theorem pieces_append (hr : r = [] ∨ opening <+: r) (hp : ∀ k, ¬opening <+: p.drop k) :
    pieces (p ++ r) = (p ++ (pieces r).1, (pieces r).2) := by
  induction p with
  | nil => rfl
  | cons c p ih =>
    have hno : Text.startsWith opening (c :: p ++ r) = false := by
      rw [Bool.eq_false_iff]
      intro h
      exact hp 0 (opening_prefix_of_opening (Text.startsWith_iff.1 h) (List.cons_ne_nil c p) hr)
    rw [List.cons_append] at hno ⊢
    rw [pieces, ih fun k => hp (k + 1)]
    simp only [hno, Bool.false_eq_true, if_false, List.cons_append]

/-- Pieces that begin with declarations are found again in the text they make up. -/
theorem pieces_flatten (ho : ∀ p ∈ more, opening <+: p) (hu : ∀ p ∈ more, Undivided p) :
    pieces more.flatten = ([], more) := by
  induction more with
  | nil => rfl
  | cons p more ih =>
    have hopened := ho p (by simp)
    obtain ⟨c, p, rfl⟩ : ∃ c q, p = c :: q := by
      cases p with
      | nil => exact absurd hopened (by decide)
      | cons c q => exact ⟨c, q, rfl⟩
    have hrest := ih (fun q hq => ho q (List.mem_cons_of_mem _ hq)) fun q hq => hu q (List.mem_cons_of_mem _ hq)
    have hnext := flatten_opened fun q hq => ho q (List.mem_cons_of_mem _ hq)
    have hundivided : Undivided (c :: p) := hu (c :: p) (by simp)
    have hstart : Text.startsWith opening (c :: (p ++ more.flatten)) = true := by
      rw [Text.startsWith_iff]
      exact hopened.trans (List.prefix_append (c :: p) more.flatten)
    rw [List.flatten_cons, List.cons_append, pieces, pieces_append hnext hundivided.not_prefix_tail, hrest]
    simp only [hstart, if_true, List.append_nil]

/-- There is only one way to cut a text, up to nothing in front of it. -/
theorem IsCut.pieces_eq (h : IsCut cs first more) :
    pieces cs = (first, more) ∨ pieces cs = ([], first :: more) := by
  by_cases hf : opening <+: first
  · have hopened : ∀ p ∈ first :: more, opening <+: p := by
      intro p hp
      cases hp with
      | head => exact hf
      | tail _ hp => exact h.opened p hp
    have hall := pieces_flatten hopened h.undivided
    rw [List.flatten_cons, ← h.whole] at hall
    exact .inr hall
  · have hno (k : Nat) : ¬opening <+: first.drop k := by
      cases k with
      | zero => exact hf
      | succ k => exact h.undivided first (by simp) (k + 1) (Nat.succ_pos k)
    have hmore := pieces_flatten h.opened fun p hp => h.undivided p (List.mem_cons_of_mem first hp)
    rw [h.whole, pieces_append (flatten_opened h.opened) hno, hmore, List.append_nil]
    exact .inl rfl

theorem isCut_pieces (cs : List Char) :
    IsCut cs (pieces cs).1 (pieces cs).2 ∧ ¬opening <+: (pieces cs).1 := by
  induction cs with
  | nil =>
    refine ⟨⟨rfl, nofun, fun p hp k _ => ?_⟩, by decide⟩
    rw [List.mem_singleton.1 hp, pieces, List.drop_nil]
    decide
  | cons c cs ih =>
    obtain ⟨⟨hwhole, hopened, hundivided⟩, hno⟩ := ih
    have hfirst (k : Nat) : ¬opening <+: (pieces cs).1.drop k := by
      cases k with
      | zero => exact hno
      | succ k => exact hundivided _ (by simp) (k + 1) (Nat.succ_pos k)
    have hpieces : ∀ p ∈ (c :: (pieces cs).1) :: (pieces cs).2, Undivided p :=
      List.forall_mem_cons.2 ⟨undivided_cons hfirst, fun p hp => hundivided p (List.mem_cons_of_mem _ hp)⟩
    have htext : c :: cs = c :: (pieces cs).1 ++ (pieces cs).2.flatten := by
      rw [List.cons_append, ← hwhole]
    rw [pieces]
    by_cases hstart : Text.startsWith opening (c :: cs) = true
    · have hopens : opening <+: c :: (pieces cs).1 := by
        apply opening_prefix_of_opening _ (List.cons_ne_nil _ _) (flatten_opened hopened)
        rw [← htext]
        exact Text.startsWith_iff.1 hstart
      simp only [hstart, if_true]
      refine ⟨⟨htext, List.forall_mem_cons.2 ⟨hopens, hopened⟩, ?_⟩, by decide⟩
      refine List.forall_mem_cons.2 ⟨fun k _ => ?_, hpieces⟩
      rw [List.drop_nil]
      decide
    · simp only [hstart, Bool.false_eq_true, if_false]
      refine ⟨⟨htext, hopened, hpieces⟩, fun hopens => hstart ?_⟩
      rw [Text.startsWith_iff, htext]
      exact hopens.trans (List.prefix_append _ _)

end Pieces

/-! ### Documents -/

/-- The documents that pieces are: those that are not blank, each on the line that it begins on. -/
def documentsOf (filename : String) (ps : List (List Char)) : List RawDocument :=
  ps.zipIdx.filterMap fun p =>
    if p.1.all Text.isBlank then none
    else some ⟨filename, 1 + (ps.take p.2).flatten.count '\n', String.ofList p.1⟩

section Documents
variable {filename content : String} {cs first : List Char} {more ps : List (List Char)}

theorem numbered_append (line : Nat) (ps qs : List (List Char)) :
    numbered filename line (ps ++ qs) =
      numbered filename line ps ++ numbered filename (line + ps.flatten.count '\n') qs := by
  induction ps generalizing line with
  | nil => rfl
  | cons p ps ih =>
    rw [List.cons_append, numbered, numbered, ih, List.flatten_cons, List.count_append, Nat.add_assoc]
    split <;> rfl

theorem numbered_eq_filterMap (line : Nat) (ps : List (List Char)) :
    numbered filename line ps = ps.zipIdx.filterMap fun p =>
      if p.1.all Text.isBlank then none
      else some ⟨filename, line + (ps.take p.2).flatten.count '\n', String.ofList p.1⟩ := by
  induction ps generalizing line with
  | nil => rfl
  | cons p ps ih =>
    rw [numbered, ih, List.zipIdx_cons, List.filterMap_cons, List.zipIdx_succ, List.filterMap_map]
    have hlines (i : Nat) : line + ((p :: ps).take (i + 1)).flatten.count '\n' =
        line + p.count '\n' + (ps.take i).flatten.count '\n' := by
      rw [List.take_succ_cons, List.flatten_cons, List.count_append, Nat.add_assoc]
    simp only [Function.comp_def, hlines]
    split <;> rfl

theorem numbered_one (ps : List (List Char)) : numbered filename 1 ps = documentsOf filename ps :=
  numbered_eq_filterMap 1 ps

/-- However a text is cut, the pieces are its documents. -/
theorem IsCut.split_eq (h : IsCut content.toList first more) :
    split filename content = documentsOf filename (first :: more) := by
  rw [← numbered_one, split]
  obtain heq | heq := h.pieces_eq
  · rw [heq]
  · rw [heq]
    rfl

theorem flatMap_text_numbered (line : Nat) (ps : List (List Char)) :
    (numbered filename line ps).flatMap (·.text.toList) = (ps.filter fun p => !p.all Text.isBlank).flatten := by
  induction ps generalizing line with
  | nil => rfl
  | cons p ps ih =>
    rw [numbered, List.filter_cons]
    cases p.all Text.isBlank with
    | true => exact ih _
    | false =>
      simp only [Bool.false_eq_true, if_false, List.flatMap_cons, ih]
      simp

/-- No text is lost but blanks in front of the first declaration. -/
theorem IsCut.eq_append_texts (h : IsCut content.toList first more) :
    content.toList = (if first.all Text.isBlank then first else []) ++
      (split filename content).flatMap (·.text.toList) := by
  have hmore : more.filter (fun p => !p.all Text.isBlank) = more := by
    rw [List.filter_eq_self]
    intro p hp
    rw [not_blank_of_opening (h.opened p hp), Bool.not_false]
  rw [h.split_eq, ← numbered_one, flatMap_text_numbered, List.filter_cons, hmore, h.whole]
  cases first.all Text.isBlank <;> simp

end Documents

end RawDocument

end Tabulate
